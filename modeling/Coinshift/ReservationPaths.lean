import Coinshift.FirstAccept

/-! Reservations after reorganisations.
Disconnecting an accept clears the reservation of its swap; the one it had replaced is not brought back.
A node that connected its chain directly has the reservation of the latest accept on it, so the two
differ while that one's window is open. -/
namespace Coinshift
open Checked SwapTables

variable {F : Type} {lib : Externals F} {ctxt : BatchVerificationContext} {s t u : State F}
  {header : Header} {body : Body} {swapId : SwapId} {chain rest : List Block} {steps : List (Step F)}

section Chain

def lastAccept (swapId : SwapId) : List Block → Option SwapReservation
  | [] => none
  | block :: rest =>
      ((acceptsOf swapId block.2.transactions).getLast?.map (fun named => ⟨named,rest.length⟩)).or (lastAccept swapId rest)

def createdOn (swapId : SwapId) : List Block → Option (ParentChainType × Option Address)
  | [] => none
  | block :: rest => (createsOf swapId block.2.transactions).getLast?.or (createdOn swapId rest)

def Transaction.clears (swapId : SwapId) (tx : Transaction) : Bool :=
  (tx.acceptOf swapId).isSome || (tx.createOf swapId).isSome

/- Whether the reservation of a swap has been cleared by a disconnection, with no accept connected since. -/
def clearedAfter (swapId : SwapId) (cleared : Bool) : Step F → Bool
  | .connect _ body => cleared && (acceptsOf swapId body.transactions).isEmpty
  | .disconnect _ body => cleared || body.transactions.any (Transaction.clears swapId)
  | _ => cleared

def cleared (swapId : SwapId) (steps : List (Step F)) : Bool := steps.foldl (clearedAfter swapId) false

end Chain

def FreshCreates : List Block → Prop
  | [] => True
  | block :: rest =>
      (∀ swapId, createsOf swapId block.2.transactions ≠ [] → createdOn swapId rest = none) ∧ FreshCreates rest

structure Tracks (isCleared : SwapId → Bool) (chain : List Block) (t : State F) : Prop where
  next : t.nextHeight = chain.length
  reservations : ∀ swapId, t.getSwapReservation swapId = if isCleared swapId then none else lastAccept swapId chain
  routes : ∀ swapId, (t.getSwap swapId).map Swap.route = createdOn swapId chain
  fresh : FreshCreates chain

section Connect

theorem connectTracks {isCleared : SwapId → Bool} (tracks : Tracks isCleared chain s)
    (ok : connectBlock lib ctxt s header body = .ok t) :
    Tracks (fun swapId => isCleared swapId && (acceptsOf swapId body.transactions).isEmpty) ((header,body) :: chain) t := by
  obtain ⟨pre,source⟩ := connectBlockSource ok
  refine ⟨?_,?_,?_,?_,tracks.fresh⟩
  · rw [State.nextHeight,source.connected.height,tracks.next]
    rfl
  · intro swapId
    rw [source.reservations,reservationsAfterAccepts,tracks.next,tracks.reservations,lastAccept]
    cases accepts : acceptsOf swapId body.transactions with
    | nil => simp
    | cons first others => simp [List.getLast?_cons]
  · intro swapId
    have records := (connectSwapsEffect source.connected.swaps).2.2.1
    rw [records,routesAfterCreates,filledTransactions source.validated.transactions,tracks.routes]
    rfl
  · intro swapId creates
    obtain ⟨route,mem⟩ := List.exists_mem_of_ne_nil _ creates
    obtain ⟨tx,inside,made⟩ := List.mem_filterMap.mp mem
    obtain ⟨create,found,_⟩ := Option.map_eq_some_iff.mp made
    obtain ⟨kind,own⟩ := createOfSome found
    have missing := source.validated.unrecorded inside kind
    rw [own] at missing
    rw [← tracks.routes,missing]
    rfl

end Connect

section Disconnect

theorem reservationsCleared {txs : List Transaction} {reservations : SwapId → Option SwapReservation} :
    txs.foldl (fun r tx => reservationsUndone tx r) reservations swapId =
      if txs.any (Transaction.clears swapId) then none else reservations swapId := by
  have step (r : SwapId → Option SwapReservation) (tx : Transaction) :
      reservationsUndone tx r swapId = if tx.clears swapId then none else r swapId := by
    unfold reservationsUndone Transaction.clears Transaction.acceptOf Transaction.createOf
    cases tx.data with
    | swapCreate create => by_cases own : swapId = create.swapId <;> simp [own,eq_comm]
    | swapAccept accepted claimer => by_cases own : swapId = accepted <;> simp [own,eq_comm]
    | _ => rfl
  exact foldlClear (fun r : SwapId → Option SwapReservation => r swapId) step

theorem disconnectTracks {isCleared : SwapId → Bool} (tracks : Tracks isCleared ((header,body) :: rest) s)
    (ok : disconnectTip lib s header body = .ok t) :
    Tracks (fun swapId => isCleared swapId || body.transactions.any (Transaction.clears swapId)) rest t := by
  have source := disconnectSource ok
  obtain ⟨reservations,records⟩ := disconnectSwapsEffect source.swaps
  refine ⟨?_,?_,?_,tracks.fresh.2⟩
  · have next := disconnectNext ok
    rw [tracks.next,List.length_cons] at next
    omega
  · intro swapId
    rw [reservations,reservationsCleared,List.any_reverse,tracks.reservations]
    cases touched : body.transactions.any (Transaction.clears swapId) with
    | true => simp
    | false =>
        have noAccept : acceptsOf swapId body.transactions = [] := by
          rw [acceptsOf,List.filterMap_eq_nil_iff]
          intro tx mem
          have quiet := List.any_eq_false.mp touched tx mem
          simp only [Transaction.clears,Bool.or_eq_true,not_or,Bool.not_eq_true,Option.isSome_eq_false_iff,
            Option.isNone_iff_eq_none] at quiet
          exact quiet.1
        simp [lastAccept,noAccept]
  · intro swapId
    rw [records,routesUndone,List.any_reverse,tracks.routes]
    cases made : body.transactions.any (fun tx => (tx.createOf swapId).isSome) with
    | true =>
        obtain ⟨tx,mem,isSome⟩ := List.any_eq_true.mp made
        obtain ⟨create,found⟩ := Option.isSome_iff_exists.mp isSome
        have creates : createsOf swapId body.transactions ≠ [] := by
          refine List.ne_nil_of_mem (a := create.route) (List.mem_filterMap.mpr ⟨tx,mem,?_⟩)
          rw [found]
          rfl
        rw [if_pos rfl,tracks.fresh.1 swapId creates]
    | false =>
        have noCreate : createsOf swapId body.transactions = [] := by
          rw [createsOf,List.filterMap_eq_nil_iff]
          intro tx mem
          have quiet := List.any_eq_false.mp made tx mem
          simpa using quiet
        simp [createdOn,noCreate]

end Disconnect

section Runs

theorem otherTracks {isCleared : SwapId → Bool} (tracks : Tracks isCleared chain s) (next : t.nextHeight = s.nextHeight)
    (reservations : t.swapReservations = s.swapReservations) (terms : SameTerms s.getSwap t.getSwap) :
    Tracks isCleared chain t := by
  refine ⟨next.trans tracks.next,?_,?_,tracks.fresh⟩
  · intro swapId
    rw [getSwapReservation,reservations]
    exact tracks.reservations swapId
  · intro swapId
    have route : Swap.route = (fun terms : SwapTerms => (terms.parentChain,terms.l2Recipient)) ∘ Swap.terms := rfl
    rw [← tracks.routes,route,← Option.map_map,terms swapId,Option.map_map]

theorem stepTracks {isCleared : SwapId → Bool} {step : Step F} {chain' : List Block}
    (tracks : Tracks isCleared chain s) (follows : chainStep chain step = some chain')
    (ok : step.apply lib ctxt s = .ok t) :
    Tracks (fun swapId => clearedAfter swapId (isCleared swapId) step) chain' t := by
  cases step with
  | connect header body =>
      cases follows
      exact connectTracks tracks ok
  | disconnect header body =>
      cases chain with
      | nil => cases follows
      | cons top rest =>
          simp only [chainStep] at follows
          split at follows
          · next same =>
              subst same
              cases follows
              exact disconnectTracks tracks ok
          · cases follows
  | connectPeg data rpc =>
      cases follows
      have source := connectPegSource ok
      obtain ⟨height,_,effect⟩ := source.effect
      exact otherTracks tracks (by rw [State.nextHeight,State.nextHeight,source.height]) effect.reservations
        effect.sameTerms
  | disconnectPeg data =>
      cases follows
      have source := disconnectPegSource ok
      exact otherTracks tracks (by rw [State.nextHeight,State.nextHeight,source.height]) source.reservations
        source.terms
  | restoreAccumulator accumulator =>
      cases follows
      cases ok
      exact otherTracks tracks rfl rfl (fun _ => rfl)
  | localOp op =>
      cases follows
      simp only [Step.apply,bindOk,pureOk] at ok
      obtain ⟨w,applied,rfl⟩ := ok
      obtain ⟨reservations,terms⟩ := localOpKeeps applied
      exact otherTracks tracks rfl reservations terms

theorem newTracks : Tracks (fun _ => false) [] (State.new F) := by
  refine ⟨rfl,?_,?_,trivial⟩
  · intro swapId
    exact Table.tryGetEmpty
  · intro swapId
    have none : (State.new F).getSwap swapId = none := Table.tryGetEmpty
    rw [none]
    rfl

theorem runTracks (follows : chainOf steps = some chain) (ok : run lib ctxt steps (State.new F) = .ok t) :
    Tracks (fun swapId => cleared swapId steps) chain t := by
  induction steps using List.reverseRecOn generalizing chain t with
  | nil =>
      cases follows
      cases ok
      exact newTracks
  | append_singleton steps step ih =>
      rw [chainOf,List.foldlM_append] at follows
      obtain ⟨before,followed,last⟩ := Option.bind_eq_some_iff.mp follows
      obtain ⟨middle,ran,applied⟩ := foldAppendOk.mp ok
      have lastStep : chainStep before step = some chain := by simpa using last
      obtain ⟨next,one,nothing⟩ := foldConsOk.mp applied
      cases foldNilOk.mp nothing
      have tracks := stepTracks (ih followed ran) lastStep one
      simpa only [cleared,List.foldl_append,List.foldl_cons,List.foldl_nil] using tracks

theorem forwardNeverCleared (forward : ∀ step ∈ steps, step.isForward = true) : cleared swapId steps = false := by
  induction steps using List.reverseRecOn with
  | nil => rfl
  | append_singleton steps step ih =>
      have before := ih (fun other mem => forward other (List.mem_append_left _ mem))
      have isForward := forward step (List.mem_append_right _ (List.mem_singleton_self step))
      rw [cleared,List.foldl_append,List.foldl_cons,List.foldl_nil]
      change clearedAfter swapId (cleared swapId steps) step = false
      rw [before]
      cases step with
      | disconnect => cases isForward
      | _ => rfl

end Runs

def entitledIn (t : State F) (swapId : SwapId) (height : Nat) : Option Address :=
  (t.getSwap swapId).bind (fun swap => t.entitledClaimerAt swap height)

/- Of every open swap whose reservation was cleared, the latest accept on the chain has run out. -/
def ClearedLapsed (steps : List (Step F)) (chain : List Block) : Prop :=
  ∀ swapId parentChain r, cleared swapId steps = true → createdOn swapId chain = some (parentChain,none) →
    lastAccept swapId chain = some r → r.expiresAt parentChain ≤ chain.length

def claimerOf (route : ParentChainType × Option Address) (reservation : Option SwapReservation) (height : Nat) :
    Option Address :=
  match route.2 with
  | some recipient => some recipient
  | none => (reservation.filter (fun r => r.isLiveAt route.1 height)).map (·.claimer)

theorem Tracks.entitled {isCleared : SwapId → Bool} (tracks : Tracks isCleared chain t) (swapId : SwapId) (height : Nat) :
    entitledIn t swapId height = (createdOn swapId chain).bind (fun route =>
      claimerOf route (if isCleared swapId then none else lastAccept swapId chain) height) := by
  rw [entitledIn,← tracks.routes,← tracks.reservations]
  cases recorded : t.getSwap swapId with
  | none => rfl
  | some swap =>
      simp only [Option.bind_some,Option.map_some,entitledClaimerAt,claimerOf,Swap.route,getSwapId recorded]
      cases swap.l2Recipient with
      | some recipient => rfl
      | none =>
          cases t.getSwapReservation swapId with
          | none => rfl
          | some r =>
              simp only [Option.filter_some]
              split <;> rfl

theorem pathIndependentIff {direct : List (Step F)} (follows : chainOf steps = some chain)
    (ran : run lib ctxt steps (State.new F) = .ok t) (forward : ∀ step ∈ direct, step.isForward = true)
    (sameChain : chainOf direct = some chain) (ranDirect : run lib ctxt direct (State.new F) = .ok u) :
    (∀ swapId h, t.nextHeight ≤ h → entitledIn t swapId h = entitledIn u swapId h) ↔ ClearedLapsed steps chain := by
  have path := runTracks follows ran
  have straight := runTracks sameChain ranDirect
  have never (swapId : SwapId) : cleared swapId direct = false := forwardNeverCleared forward
  simp only [path.entitled,straight.entitled,never,path.next,Bool.false_eq_true,if_false]
  constructor
  · intro same swapId parentChain r isCleared created latest
    have atNext := same swapId chain.length (Nat.le_refl _)
    rw [created,latest,isCleared] at atNext
    by_contra live
    have isLive : r.isLiveAt parentChain chain.length = true := decide_eq_true (Nat.lt_of_not_le live)
    simp [claimerOf,Option.filter,isLive] at atNext
  · intro lapsed swapId h above
    cases isCleared : cleared swapId steps with
    | false => rfl
    | true =>
        cases created : createdOn swapId chain with
        | none => rfl
        | some route =>
            obtain ⟨parentChain,recipient⟩ := route
            cases recipient with
            | some named => rfl
            | none =>
                cases latest : lastAccept swapId chain with
                | none => rfl
                | some r =>
                    have ended := lapsed swapId parentChain r isCleared created latest
                    have dead : r.isLiveAt parentChain h = false := decide_eq_false (by omega)
                    simp [claimerOf,Option.filter,dead]

section Reached

open Reference

def playsBoth (path direct : List Move)
    (check : List (Step Forest) → State Forest → List (Step Forest) → State Forest → Bool) : Bool :=
  plays path (fun steps t => plays direct (fun directSteps u =>
    (chainOf steps).isSome && chainOf steps = chainOf directSteps && directSteps.all Step.isForward &&
      check steps t directSteps u))

theorem playsBothRun {path direct : List Move}
    {check : List (Step Forest) → State Forest → List (Step Forest) → State Forest → Bool}
    (ok : playsBoth path direct check = true) : ∃ steps directSteps chain t u,
      chainOf steps = some chain ∧ run externals context steps (State.new Forest) = .ok t ∧
      (∀ step ∈ directSteps, step.isForward = true) ∧ chainOf directSteps = some chain ∧
      run externals context directSteps (State.new Forest) = .ok u ∧ check steps t directSteps u = true := by
  obtain ⟨steps,t,ran,inner⟩ := playsRun ok
  obtain ⟨directSteps,u,ranDirect,checked⟩ := playsRun inner
  simp only [Bool.and_eq_true,decide_eq_true_eq,List.all_eq_true,Option.isSome_iff_exists] at checked
  obtain ⟨⟨⟨⟨chain,follows⟩,same⟩,forward⟩,passed⟩ := checked
  exact ⟨steps,directSteps,chain,t,u,follows,ran,forward,same ▸ follows,ranDirect,passed⟩

def bobReserved : List Move := created ++ [grow [(acceptOpen,[bob])]] ++ List.replicate 18 (grow [])

def rolledBackBelow : List Move := bobReserved ++ [grow [],grow [(acceptByAlice,[alice])],.shrink,.shrink]

theorem reservationForgotten : ∃ (steps direct : List (Step Forest)) (chain : List Block) (t u : State Forest),
    chainOf steps = some chain ∧ run externals context steps (State.new Forest) = .ok t ∧
    (∀ step ∈ direct, step.isForward = true) ∧ chainOf direct = some chain ∧
    run externals context direct (State.new Forest) = .ok u ∧
    entitledIn t openId t.nextHeight = none ∧ entitledIn u openId t.nextHeight = some (addressOf bob) := by
  have played : playsBoth rolledBackBelow bobReserved (fun _ t _ u =>
      entitledIn t openId t.nextHeight = none && entitledIn u openId t.nextHeight = some (addressOf bob)) = true := by
    decide +kernel
  obtain ⟨steps,direct,chain,t,u,follows,ran,forward,sameChain,ranDirect,passed⟩ := playsBothRun played
  simp only [Bool.and_eq_true,decide_eq_true_eq] at passed
  exact ⟨steps,direct,chain,t,u,follows,ran,forward,sameChain,ranDirect,passed.1,passed.2⟩

theorem lastAcceptNone {chain : List Block}
    (quiet : ∀ block ∈ chain, ∀ tx ∈ block.2.transactions, tx.data.isSwapAccept = false) :
    lastAccept swapId chain = none := by
  induction chain with
  | nil => rfl
  | cons block rest ih =>
      have noAccept : acceptsOf swapId block.2.transactions = [] := by
        rw [acceptsOf,List.filterMap_eq_nil_iff]
        intro tx mem
        have notAccept := quiet block List.mem_cons_self tx mem
        cases kind : tx.data with
        | swapAccept => simp [kind,TxData.isSwapAccept] at notAccept
        | _ => simp [Transaction.acceptOf,kind]
      rw [lastAccept,noAccept,ih (fun other mem => quiet other (List.mem_cons_of_mem block mem))]
      rfl

theorem firstAcceptGivenUp : ∃ (steps direct : List (Step Forest)) (t u : State Forest),
    run externals context steps (State.new Forest) = .ok t ∧ run externals context direct (State.new Forest) = .ok u ∧
    cleared openId steps = true ∧
    ∀ swapId h, t.nextHeight ≤ h → entitledIn t swapId h = entitledIn u swapId h := by
  have played : playsBoth (created ++ [grow [(acceptOpen,[bob])],.shrink]) created (fun steps _ direct _ =>
      cleared openId steps && (chainOf direct).all (fun chain =>
        chain.all (fun block => block.2.transactions.all (fun tx => ! tx.data.isSwapAccept)))) = true := by
    decide +kernel
  obtain ⟨steps,direct,chain,t,u,follows,ran,forward,sameChain,ranDirect,passed⟩ := playsBothRun played
  rw [sameChain] at passed
  simp only [Bool.and_eq_true,Option.all_some,List.all_eq_true,Bool.not_eq_true'] at passed
  refine ⟨steps,direct,t,u,ran,ranDirect,passed.1,?_⟩
  refine (pathIndependentIff follows ran forward sameChain ranDirect).mpr ?_
  intro swapId parentChain r _ _ latest
  rw [lastAcceptNone passed.2] at latest
  cases latest

end Reached

end Coinshift
