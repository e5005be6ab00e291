import Coinshift.CreatedOnce

/-! What the tables of a ledger are worth.
The sidechain's wealth is recomputed from deposits and withdrawals. At every outpoint, the worth of what was
created there is unspent or spent, and not both. -/
namespace Coinshift
open Checked Keyed

variable {F : Type} {s : State F}

section Wealth

def addDeposit (total : Amount) (outpoint : OutPoint) (value : Amount) : Except Error Amount :=
  match outpoint with
  | .deposit .. => okOr (total.checkedAdd value) .amountOverflow
  | _ => pure total

def addWithdrawal (total : Amount) (inpoint : InPoint) (value : Amount) : Except Error Amount :=
  match inpoint with
  | .withdrawal _ => okOr (total.checkedAdd value) .amountOverflow
  | _ => pure total

/- The values of spent deposits and of outputs spent by withdrawals, in one pass. -/
def addStxo (totals : Amount × Amount) (entry : OutPoint × SpentOutput) : Except Error (Amount × Amount) := do
  let totalDeposit ← addDeposit totals.1 entry.1 entry.2.output.getValue
  let totalWithdrawal ← addWithdrawal totals.2 entry.2.inpoint entry.2.output.getValue
  pure (totalDeposit,totalWithdrawal)

def State.sidechainWealth (s : State F) : Except Error Amount := do
  let totalDepositUtxoValue ← s.utxos.entries.foldlM (fun total entry => addDeposit total entry.1 entry.2.getValue) Amount.zero
  let (totalDepositStxoValue,totalWithdrawalStxoValue) ← s.stxos.entries.foldlM addStxo (Amount.zero,Amount.zero)
  let totalDeposits ← okOr (totalDepositUtxoValue.checkedAdd totalDepositStxoValue) .amountOverflow
  okOr (totalDeposits.checkedSub totalWithdrawalStxoValue) .amountOverflow

def OutPoint.share (o : OutPoint) (worth : Nat) : Nat :=
  match o with
  | .deposit .. => worth
  | _ => 0

def SpentOutput.withdrawn (y : SpentOutput) : Nat :=
  match y.inpoint with
  | .withdrawal _ => y.output.worth
  | .regular .. => 0

def Ledger.unspentWorth (l : Ledger) : Nat := l.utxos.weigh (fun _ x => x.worth)

def Ledger.withdrawnWorth (l : Ledger) : Nat := l.stxos.weigh (fun _ y => y.withdrawn)

def Ledger.depositedWorth (l : Ledger) : Nat :=
  l.utxos.weigh (fun o x => o.share x.worth) + l.stxos.weigh (fun o y => o.share y.output.worth)

theorem addDepositOk {total value : Amount} {o : OutPoint} (small : total.val + o.share value.val < 2 ^ 64) :
    ∃ next, addDeposit total o value = .ok next ∧ next.val = total.val + o.share value.val := by
  cases o with
  | deposit txid vout =>
      obtain ⟨next,added,isNext⟩ := checkedAddOk small
      exact ⟨next,okOrOk.mpr added,isNext⟩
  | regular txid vout => exact ⟨total,rfl,rfl⟩
  | coinbase root vout => exact ⟨total,rfl,rfl⟩

theorem addWithdrawalOk {total : Amount} {y : SpentOutput} (small : total.val + y.withdrawn < 2 ^ 64) :
    ∃ next, addWithdrawal total y.inpoint y.output.getValue = .ok next ∧ next.val = total.val + y.withdrawn := by
  obtain ⟨output,inpoint⟩ := y
  cases inpoint with
  | withdrawal m6id =>
      obtain ⟨next,added,isNext⟩ := checkedAddOk small
      exact ⟨next,okOrOk.mpr added,isNext⟩
  | regular txid vin => exact ⟨total,rfl,rfl⟩

theorem depositUtxosSum {entries : List (OutPoint × Output)} {start : Amount}
    (small : start.val + (entries.map (fun e => e.1.share e.2.worth)).sum < 2 ^ 64) :
    ∃ total, entries.foldlM (fun total entry => addDeposit total entry.1 entry.2.getValue) start = .ok total ∧
      total.val = start.val + (entries.map (fun e => e.1.share e.2.worth)).sum := by
  induction entries generalizing start with
  | nil => exact ⟨start,rfl,rfl⟩
  | cons entry entries ih =>
      rw [List.map_cons,List.sum_cons] at small
      have fits : start.val + entry.1.share entry.2.getValue.val < 2 ^ 64 := by
        unfold Output.worth at small
        omega
      obtain ⟨next,added,isNext⟩ := addDepositOk fits
      change next.val = start.val + entry.1.share entry.2.worth at isNext
      obtain ⟨total,summed,isTotal⟩ := ih (by rw [isNext]; omega : next.val + _ < 2 ^ 64)
      refine ⟨total,foldConsOk.mpr ⟨next,added,summed⟩,?_⟩
      rw [List.map_cons,List.sum_cons]
      omega

theorem stxosSum {entries : List (OutPoint × SpentOutput)} {a b : Amount}
    (smallDeposits : a.val + (entries.map (fun e => e.1.share e.2.output.worth)).sum < 2 ^ 64)
    (smallWithdrawals : b.val + (entries.map (fun e => e.2.withdrawn)).sum < 2 ^ 64) :
    ∃ a' b', entries.foldlM addStxo (a,b) = .ok (a',b') ∧
      a'.val = a.val + (entries.map (fun e => e.1.share e.2.output.worth)).sum ∧
      b'.val = b.val + (entries.map (fun e => e.2.withdrawn)).sum := by
  induction entries generalizing a b with
  | nil => exact ⟨a,b,rfl,rfl,rfl⟩
  | cons entry entries ih =>
      simp only [List.map_cons,List.sum_cons] at smallDeposits smallWithdrawals
      have fits : a.val + entry.1.share entry.2.output.getValue.val < 2 ^ 64 := by
        unfold Output.worth at smallDeposits
        omega
      obtain ⟨next,added,isNext⟩ := addDepositOk fits
      obtain ⟨next',added',isNext'⟩ := addWithdrawalOk (by omega : b.val + entry.2.withdrawn < 2 ^ 64)
      change next.val = a.val + entry.1.share entry.2.output.worth at isNext
      obtain ⟨a',b',summed,isDeposits,isWithdrawals⟩ :=
        ih (by rw [isNext]; omega : next.val + _ < 2 ^ 64) (by rw [isNext']; omega : next'.val + _ < 2 ^ 64)
      refine ⟨a',b',foldConsOk.mpr ⟨(next,next'),?_,summed⟩,?_,?_⟩
      · simp only [addStxo,added,added',okBind]
        rfl
      · simp only [List.map_cons,List.sum_cons]
        omega
      · simp only [List.map_cons,List.sum_cons]
        omega

theorem wealthOk (fits : s.depositedWorth < 2 ^ 64) (covered : s.withdrawnWorth ≤ s.depositedWorth) :
    ∃ wealth, s.sidechainWealth = .ok wealth ∧ wealth.val = s.depositedWorth - s.withdrawnWorth := by
  simp only [Ledger.depositedWorth,Ledger.withdrawnWorth,Table.weigh] at *
  obtain ⟨utxoValue,utxosSummed,isUtxos⟩ := @depositUtxosSum s.utxos.entries Amount.zero (by rw [Amount.valZero]; omega)
  obtain ⟨stxoValue,withdrawn,stxosSummed,isStxos,isWithdrawn⟩ := @stxosSum s.stxos.entries Amount.zero Amount.zero
    (by rw [Amount.valZero]; omega) (by rw [Amount.valZero]; omega)
  rw [Amount.valZero,Nat.zero_add] at isUtxos isStxos isWithdrawn
  obtain ⟨total,added,isTotal⟩ := checkedAddOk (by rw [isUtxos,isStxos]; exact fits : utxoValue.val + stxoValue.val < 2 ^ 64)
  have enough : withdrawn.val ≤ total.val := by
    rw [isTotal,isUtxos,isStxos,isWithdrawn]
    exact covered
  have less : total.checkedSub withdrawn = some ⟨UInt64.ofNat (total.val - withdrawn.val)⟩ := if_pos enough
  refine ⟨⟨UInt64.ofNat (total.val - withdrawn.val)⟩,?_,?_⟩
  · simp only [State.sidechainWealth,utxosSummed,stxosSummed,okBind,added,less,okOr]
  · have small : total.val - withdrawn.val < 2 ^ 64 := Nat.lt_of_le_of_lt (Nat.sub_le _ _) total.sat.toNat_lt
    refine (UInt64.toNat_ofNat_of_lt' small).trans ?_
    rw [isTotal,isUtxos,isStxos,isWithdrawn]

end Wealth

section Cells

variable {l l' : Ledger} {o : OutPoint}

namespace Cell

def unspentWorth (c : Cell) : Nat := c.unspent.elim 0 Output.worth

def spentWorth (c : Cell) : Nat := c.spent.elim 0 (fun y => y.output.worth)

def withdrawnWorth (c : Cell) : Nat := c.spent.elim 0 SpentOutput.withdrawn

theorem withdrawnLe {c : Cell} : c.withdrawnWorth ≤ c.spentWorth := by
  obtain ⟨unspent,spent⟩ := c
  cases spent with
  | none => exact Nat.le_refl 0
  | some y =>
      obtain ⟨output,inpoint⟩ := y
      cases inpoint with
      | withdrawal m6id => exact Nat.le_refl _
      | regular txid vin => exact Nat.zero_le _

def worth (c : Cell) : Nat := c.unspentWorth + c.spentWorth

end Cell

structure Measured (l l' : Ledger) (o : OutPoint) : Prop where
  unspent : l'.unspentWorth + (l.cell o).unspentWorth = l.unspentWorth + (l'.cell o).unspentWorth
  withdrawn : l'.withdrawnWorth + (l.cell o).withdrawnWorth = l.withdrawnWorth + (l'.cell o).withdrawnWorth
  deposited : l'.depositedWorth + o.share (l.cell o).worth = l.depositedWorth + o.share (l'.cell o).worth

theorem shareAdd {a b : Nat} : o.share (a + b) = o.share a + o.share b := by cases o <;> rfl

theorem measured (elsewhere : ∀ o', o' ≠ o → l'.cell o' = l.cell o') : Measured l l' o := by
  have utxos : ∀ o', o' ≠ o → l'.utxos.tryGet o' = l.utxos.tryGet o' :=
    fun o' other => congrArg Cell.unspent (elsewhere o' other)
  have stxos : ∀ o', o' ≠ o → l'.stxos.tryGet o' = l.stxos.tryGet o' :=
    fun o' other => congrArg Cell.spent (elsewhere o' other)
  refine ⟨Table.weighElsewhere utxos,Table.weighElsewhere stxos,?_⟩
  have unspentShare (k : Ledger) : k.utxos.weightAt (fun o x => o.share x.worth) o = o.share (k.cell o).unspentWorth := by
    simp only [Table.weightAt,Cell.unspentWorth,Ledger.cell]
    cases k.utxos.tryGet o with
    | none => cases o <;> rfl
    | some x => rfl
  have spentShare (k : Ledger) :
      k.stxos.weightAt (fun o y => o.share y.output.worth) o = o.share (k.cell o).spentWorth := by
    simp only [Table.weightAt,Cell.spentWorth,Ledger.cell]
    cases k.stxos.tryGet o with
    | none => cases o <;> rfl
    | some y => rfl
  have unspent : l'.utxos.weigh (fun o x => o.share x.worth) + o.share (l.cell o).unspentWorth =
      l.utxos.weigh (fun o x => o.share x.worth) + o.share (l'.cell o).unspentWorth := by
    rw [← unspentShare l,← unspentShare l']
    exact Table.weighElsewhere utxos
  have spent : l'.stxos.weigh (fun o y => o.share y.output.worth) + o.share (l.cell o).spentWorth =
      l.stxos.weigh (fun o y => o.share y.output.worth) + o.share (l'.cell o).spentWorth := by
    rw [← spentShare l,← spentShare l']
    exact Table.weighElsewhere stxos
  unfold Ledger.depositedWorth Cell.worth
  rw [shareAdd,shareAdd]
  omega

end Cells

section Accounts

variable {made more : List PointedOutput} {l l' : Ledger} {o : OutPoint}

structure Accounted (made : List PointedOutput) (l : Ledger) : Prop where
  from_ : LedgerFrom made l
  worth : ∀ p ∈ made, (l.cell p.outpoint).worth = p.output.worth

theorem Accounted.found (accounted : Accounted made l) {x : Output} (unspent : l.utxos.tryGet o = some x) :
    (l.cell o).unspentWorth = x.worth ∧ (l.cell o).spentWorth = 0 ∧ (l.cell o).withdrawnWorth = 0 := by
  have worth := accounted.worth ⟨o,x⟩ (accounted.from_.utxos o x unspent)
  have here : (l.cell o).unspentWorth = x.worth := by simp [Cell.unspentWorth,Ledger.cell,unspent]
  have less := @Cell.withdrawnLe (l.cell o)
  unfold Cell.worth at worth
  dsimp only at worth
  exact ⟨here,by omega,by omega⟩

theorem Accounted.fresh (accounted : Accounted made l) (once : ∀ q ∈ made, q.outpoint = o → q.output.worth = 0) :
    (l.cell o).worth = 0 := by
  by_cases created : ∃ q ∈ made, q.outpoint = o
  · obtain ⟨q,mem,rfl⟩ := created
    exact (accounted.worth q mem).trans (once q mem rfl)
  · have noUtxo : l.utxos.tryGet o = none := by
      refine Option.eq_none_iff_forall_ne_some.mpr (fun x found => created ?_)
      exact ⟨⟨o,x⟩,accounted.from_.utxos o x found,rfl⟩
    have noStxo : l.stxos.tryGet o = none := by
      refine Option.eq_none_iff_forall_ne_some.mpr (fun y found => created ?_)
      exact ⟨⟨o,y.output⟩,accounted.from_.stxos o y found,rfl⟩
    simp [Cell.worth,Cell.unspentWorth,Cell.spentWorth,Ledger.cell,noUtxo,noStxo]

theorem Accounted.change (accounted : Accounted made l) (isFrom : LedgerFrom (made ++ more) l')
    (elsewhere : ∀ o', o' ≠ o → l'.cell o' = l.cell o') (news : ∀ p ∈ more, p.outpoint = o)
    (here : ∀ p ∈ made ++ more, p.outpoint = o → (l'.cell o).worth = p.output.worth) : Accounted (made ++ more) l' := by
  refine ⟨isFrom,fun p mem => ?_⟩
  by_cases same : p.outpoint = o
  · rw [same]
    exact here p mem same
  · rcases List.mem_append.mp mem with before | now
    · rw [elsewhere p.outpoint same]
      exact accounted.worth p before
    · exact absurd (news p now) same

end Accounts

end Coinshift
