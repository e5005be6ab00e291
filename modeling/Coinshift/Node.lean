import Coinshift.Block
import Coinshift.TwoWayPegData

/-! The steps a node takes and the runs made of them.
A run is a list of steps applied one after the other from the empty state; a step that fails
is rolled back by the database, so it is not part of any run. `chainOf` follows which blocks
are connected: only the block on top can be disconnected. -/
namespace Coinshift
open Checked

/- Operations that no block carries. -/
inductive LocalOp where
  | updateSwapL1Txid (swapId : SwapId) (l1Txid : SwapTxId) (confirmations : UInt32)
      (l1ClaimerAddress : Option Text) (l2ClaimerAddress : Option Address) (blockHash : BlockHash)
      (blockHeight : Nat)
  | updateSwapConfirmations (swapId : SwapId) (newConfirmations : UInt32) (blockHash : BlockHash)
      (blockHeight : Nat)
  | cancelSwap (swapId : SwapId) (creator : Option Address)
  | cleanupOrphanedLocks
  deriving DecidableEq, Repr

def LocalOp.apply (w : SwapTables) : LocalOp → Except Error SwapTables
  | .updateSwapL1Txid swapId l1Txid confirmations l1Claimer l2Claimer blockHash blockHeight =>
      w.updateSwapL1Txid swapId l1Txid confirmations l1Claimer l2Claimer blockHash blockHeight
  | .updateSwapConfirmations swapId newConfirmations blockHash blockHeight =>
      w.updateSwapConfirmations swapId newConfirmations blockHash blockHeight
  | .cancelSwap swapId creator => w.cancelSwap swapId creator
  | .cleanupOrphanedLocks => .ok w.cleanupOrphanedLocks.1

def LocalOp.isObservation : LocalOp → Bool
  | .updateSwapL1Txid .. | .updateSwapConfirmations .. => true
  | _ => false

/- A call that fails writes nothing. -/
def LocalOp.call {F : Type} (s : State F) (op : LocalOp) : State F :=
  match op.apply s.toSwapTables with
  | .ok w => { s with toSwapTables := w }
  | .error _ => s

inductive Step (F : Type) where
  | connect (header : Header) (body : Body)
  | disconnect (header : Header) (body : Body)
  | connectPeg (data : TwoWayPegData) (rpc : RpcReplies)
  | disconnectPeg (data : TwoWayPegData)
  -- `disconnect_tip_` puts the accumulator archived with the new tip back
  | restoreAccumulator (accumulator : Option F)
  | localOp (op : LocalOp)

variable {F : Type} (lib : Externals F) (ctxt : BatchVerificationContext)

def connectBlock (s : State F) (header : Header) (body : Body) : Except Error (State F) := do
  let pre ← prevalidate lib s ctxt header body
  connectPrevalidated lib s header body pre

def Step.apply (s : State F) : Step F → Except Error (State F)
  | .connect header body => connectBlock lib ctxt s header body
  | .disconnect header body => disconnectTip lib s header body
  | .connectPeg data rpc => connectTwoWayPegData lib s data rpc
  | .disconnectPeg data => disconnectTwoWayPegData lib s data
  | .restoreAccumulator accumulator => .ok { s with utreexoAccumulator := accumulator }
  | .localOp op => do
      let swaps ← op.apply s.toSwapTables
      pure { s with toSwapTables := swaps }

def run (steps : List (Step F)) (s : State F) : Except Error (State F) := steps.foldlM (Step.apply lib ctxt) s

abbrev Block := Header × Body

def chainStep (chain : List Block) : Step F → Option (List Block)
  | .connect header body => some ((header,body) :: chain)
  | .disconnect header body =>
      match chain with
      | top :: rest => if top = (header,body) then some rest else none
      | [] => none
  | _ => some chain

/- The connected blocks after a run, latest first; none when it disconnects another block than the top. -/
def chainOf (steps : List (Step F)) : Option (List Block) := steps.foldlM chainStep []

def Reachable (s : State F) : Prop :=
  ∃ steps chain, chainOf steps = some chain ∧ run lib ctxt steps (State.new F) = .ok s

def Step.isForward : Step F → Bool
  | .connect .. | .connectPeg .. | .localOp _ => true
  | _ => false

def Step.isConnection : Step F → Bool
  | .connect .. | .connectPeg .. => true
  | _ => false

variable {lib ctxt}

theorem runInvariant {P : State F → Prop} {steps : List (Step F)} {s t : State F}
    (step : ∀ s x t, x ∈ steps → P s → x.apply lib ctxt s = .ok t → P t)
    (start : P s) (ok : run lib ctxt steps s = .ok t) : P t :=
  foldInvariant step start ok

structure Takes (lib : Externals F) (ctxt : BatchVerificationContext) (steps : List (Step F)) (s : State F)
    (step : Step F) (t : State F) (later : List (Step F)) : Prop where
  split : ∃ earlier, steps = earlier ++ step :: later ∧ run lib ctxt earlier (State.new F) = .ok s
  applied : step.apply lib ctxt s = .ok t

theorem Takes.mem {steps later : List (Step F)} {s t : State F} {step : Step F}
    (takes : Takes lib ctxt steps s step t later) : step ∈ steps := by
  obtain ⟨earlier,rfl,_⟩ := takes.split
  exact List.mem_append_right earlier List.mem_cons_self

theorem Takes.rest {steps later : List (Step F)} {s t last : State F} {step : Step F}
    (takes : Takes lib ctxt steps s step t later) (ok : run lib ctxt steps (State.new F) = .ok last) :
    run lib ctxt later t = .ok last := by
  obtain ⟨earlier,rfl,reached⟩ := takes.split
  obtain ⟨s',first,more⟩ := foldAppendOk.mp ok
  obtain rfl : s = s' := Except.ok.inj (reached.symm.trans first)
  obtain ⟨t',applied,rest⟩ := foldConsOk.mp more
  obtain rfl : t = t' := Except.ok.inj (takes.applied.symm.trans applied)
  exact rest

theorem Takes.longer {steps later rest : List (Step F)} {s t : State F} {step : Step F}
    (takes : Takes lib ctxt steps s step t later) : Takes lib ctxt (steps ++ rest) s step t (later ++ rest) := by
  obtain ⟨earlier,rfl,reached⟩ := takes.split
  exact ⟨⟨earlier,by rw [List.append_assoc,List.cons_append],reached⟩,takes.applied⟩

theorem takesOfMem {steps : List (Step F)} {last : State F} {step : Step F}
    (ok : run lib ctxt steps (State.new F) = .ok last) (mem : step ∈ steps) :
    ∃ s t later, Takes lib ctxt steps s step t later := by
  obtain ⟨earlier,later,rfl⟩ := List.append_of_mem mem
  obtain ⟨s,reached,rest⟩ := foldAppendOk.mp ok
  obtain ⟨t,applied,_⟩ := foldConsOk.mp rest
  exact ⟨s,t,later,⟨earlier,rfl,reached⟩,applied⟩

theorem historyInvariant {P : List (Step F) → State F → Prop} {steps : List (Step F)} {last : State F}
    (start : P [] (State.new F))
    (step : ∀ earlier s x t later, steps = earlier ++ x :: later → run lib ctxt earlier (State.new F) = .ok s →
      x.apply lib ctxt s = .ok t → P earlier s → P (earlier ++ [x]) t)
    (ok : run lib ctxt steps (State.new F) = .ok last) : P steps last := by
  refine foldHistory start ?_ ok
  intro earlier x later s t split reached applied holds
  exact step earlier s x t later split reached applied holds

theorem takenInvariant {P : State F → Prop} {steps : List (Step F)} {last : State F} (start : P (State.new F))
    (step : ∀ s x t later, Takes lib ctxt steps s x t later → P s → P t)
    (ok : run lib ctxt steps (State.new F) = .ok last) : P last := by
  refine historyInvariant (P := fun _ s => P s) start ?_ ok
  intro earlier s x t later split reached applied holds
  exact step s x t later ⟨⟨earlier,split,reached⟩,applied⟩ holds

end Coinshift
