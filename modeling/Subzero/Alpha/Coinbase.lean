import Subzero.Alpha.Spending

/-! Coinbase outputs after genesis. The height in the state is never moved, so the check
of a coinbase output against it passes in every block: such a block is refused only if
it breaks another rule. -/
namespace Subzero.Alpha
variable {H : Type} [DecidableEq H] [Blake3 H]

/-- The heights of the blocks are 0, 1, 2 and so on. -/
def Numbered (blocks : List (Block H)) : Prop :=
  blocks.map Block.height = (List.range blocks.length).map UInt64.ofNat

instance (blocks : List (Block H)) : Decidable (Numbered blocks) :=
  inferInstanceAs (Decidable (_ = _))

/-- Another rule than that of the height refuses the block: two of its cells have the
same ids, or one of them is refused at its turn. -/
def Refuses [StakeCodec] (l : Ledger H) (order : Listing (CellIds H)) (block : Block H) : Prop :=
  ∀ cells ∈ (State.orderedCells order block).toOption, ¬ Along Admits (entriesOf l.cells) cells

instance [StakeCodec] (l : Ledger H) (order : Listing (CellIds H)) (block : Block H) :
    Decidable (Refuses l order block) :=
  inferInstanceAs (Decidable (∀ cells ∈ (State.orderedCells order block).toOption, _))

/-- At the height 0 only the other rules refuse a block. -/
theorem Ledger.Recorded.apply_error_iff [StakeCodec] {l : Ledger H} (recorded : l.Recorded)
    (order : BlockOrder H) (block : Block H) :
    (∃ e, l.state.apply order block = .error e) ↔ Refuses l order.dependencies block := by
  unfold State.apply Refuses
  cases State.orderedCells order.dependencies block with
  | error e => simp [Except.toOption]
  | ok cells =>
    have timely : ∀ c ∈ cells, Timely l.state.height c.outputs :=
      fun _ _ _ _ _ => recorded.height
    simp only [Except.toOption, Option.mem_some_iff, forall_eq', ← recorded.entries]
    constructor
    · rintro ⟨e, failed⟩ along
      rw [(State.applyCells_iff _).mpr ⟨along, timely, rfl⟩] at failed
      cases failed
    · intro refused
      cases applied : State.applyCells order.liveCells cells l.state with
      | error e => exact ⟨e, rfl⟩
      | ok s => exact absurd ((State.applyCells_iff _).mp applied).1 refused

/-- A block after the first with a coinbase output is rejected exactly if another rule
refuses it. -/
theorem late_coinbase_rejected_iff [StakeCodec]
    {steps : List (Ledger H × BlockOrder H × Block H)} {last : Ledger H}
    (run : Run Ledger.step Ledger.new steps last) (order : BlockOrder H) (block : Block H) :
    steps ≠ [] → Numbered (steps.map (fun x => x.2.2) ++ [block]) →
      (∃ c ∈ block.cells, hasCoinbaseOutput c = true) →
      ((∃ e, last.state.apply order block = .error e) ↔
        Refuses last order.dependencies block) := by
  intro _ _ _
  exact (Ledger.recorded run).apply_error_iff order block

section Sample

/-- The second block, with some cells. -/
def secondBlock (cells : List (Cell Digest)) : Block Digest := ⟨none, 1, ⟨0⟩, cells⟩

/-- The block of height 1 mints, and the spendable total grows with it. -/
theorem late_coinbase_applied : ∃ steps last, Run Ledger.step Ledger.new steps last ∧
    steps ≠ [] ∧ Numbered (steps.map (fun x => x.2.2) ++ [secondBlock [mint 50]]) ∧
    hasCoinbaseOutput (mint 50) = true ∧ last.state.totalSpendingCapacity = 100 ∧
    ∃ s, last.state.apply ascendingIds (secondBlock [mint 50]) = .ok s ∧
      s.totalSpendingCapacity = 150 := by
  have found : (runBlocks [[mint 100]]).any (fun r => decide (r.1 ≠ [] ∧
      Numbered (r.1.map (fun x => x.2.2) ++ [secondBlock [mint 50]]) ∧
      hasCoinbaseOutput (mint 50) = true ∧ r.2.state.totalSpendingCapacity = 100 ∧
      ∃ s ∈ (r.2.state.apply ascendingIds (secondBlock [mint 50])).toOption,
        s.totalSpendingCapacity = 150)) = true := by
    decide +kernel
  obtain ⟨steps, last, run, facts⟩ := exec_any found
  obtain ⟨some_steps, numbered, mints, before, s, applied, total⟩ := of_decide_eq_true facts
  exact ⟨steps, last, run, some_steps, numbered, mints, before, s,
    mem_toOption.mp applied, total⟩

/-- The same coin cannot be minted again. -/
theorem late_coinbase_rejected_same_coin : ∃ steps last, Run Ledger.step Ledger.new steps last ∧
    steps ≠ [] ∧ Numbered (steps.map (fun x => x.2.2) ++ [secondBlock [mint 100]]) ∧
    (∃ c ∈ (secondBlock [mint 100]).cells, hasCoinbaseOutput c = true) ∧
    ∃ e, last.state.apply ascendingIds (secondBlock [mint 100]) = .error e := by
  have found : (runBlocks [[mint 100]]).any (fun r => decide (r.1 ≠ [] ∧
      Numbered (r.1.map (fun x => x.2.2) ++ [secondBlock [mint 100]]) ∧
      (∃ c ∈ (secondBlock [mint 100]).cells, hasCoinbaseOutput c = true) ∧
      Refuses r.2 ascendingIds.dependencies (secondBlock [mint 100]))) = true := by
    decide +kernel
  obtain ⟨steps, last, run, facts⟩ := exec_any found
  obtain ⟨some_steps, numbered, mints, refused⟩ := of_decide_eq_true facts
  exact ⟨steps, last, run, some_steps, numbered, mints,
    (late_coinbase_rejected_iff run ascendingIds _ some_steps numbered mints).mpr refused⟩

end Sample
end Subzero.Alpha
