import Subzero.Alpha.Minting

/-! The totals of the state against the outputs that are not consumed. What a cell
consumes is taken from the spendable total, whatever its type and however often it has
been consumed. So the totals are right as long as no stake is consumed, nothing is
consumed twice and a cell that mints consumes nothing. -/
namespace Subzero.Alpha
variable {H : Type} [DecidableEq H] [Blake3 H]

/-- All the outputs of some cells, with their ids. -/
def outputsOf (live : Entries H) : Multiset (CellId H × Output H) :=
  live.bind fun e => (e.2.withIds : List (CellId H × Output H))

/-- The outputs that no cell consumes. -/
def unspent (live : Entries H) : Multiset (CellId H × Output H) :=
  (outputsOf live).filter fun x => ∀ e ∈ live, x.1 ∉ e.2.consumed

/-- The capacity of the coinbase and transfer outputs. -/
def spendable (outputs : Multiset (CellId H × Output H)) : Nat :=
  exactTaken (outputs.filter fun x => x.2.cellType ≠ .stake)

/-- The capacity of the stake outputs. -/
def staked (outputs : Multiset (CellId H × Output H)) : Nat :=
  exactTaken (outputs.filter fun x => x.2.cellType = .stake)

/-- The sums at the turn of a cell are in the range of a `u64`. -/
def Fits (live : Entries H) (c : Cell H) : Prop :=
  exactTaken (taken c.consumed live) < 2 ^ 64 ∧ exactOf c.outputs < 2 ^ 64 ∧
    spendable (unspent (⟨c.produced, c⟩ ::ₘ live)) < 2 ^ 64 ∧
    staked (unspent (⟨c.produced, c⟩ ::ₘ live)) < 2 ^ 64

/-- A cell consumes no stake and nothing that has been consumed, and if it mints it
consumes no capacity. -/
structure Careful (live : Entries H) (c : Cell H) : Prop where
  unstaked : ∀ x ∈ taken c.consumed live, x.2.cellType ≠ .stake
  once : ∀ e ∈ live, Disjoint e.2.consumed c.consumed
  minting : (∃ o ∈ c.outputs, o.cellType = .coinbase ∧ o.capacity ≠ 0) →
    exactTaken (taken c.consumed live) = 0

section Sums

omit [DecidableEq H] [Blake3 H] in
theorem exactTaken_add (a b : Multiset (CellId H × Output H)) :
    exactTaken (a + b) = exactTaken a + exactTaken b := by
  simp [exactTaken]

omit [DecidableEq H] [Blake3 H] in
theorem spendable_add (a b : Multiset (CellId H × Output H)) :
    spendable (a + b) = spendable a + spendable b := by
  rw [spendable, Multiset.filter_add, exactTaken_add]
  rfl

omit [DecidableEq H] [Blake3 H] in
theorem staked_add (a b : Multiset (CellId H × Output H)) :
    staked (a + b) = staked a + staked b := by
  rw [staked, Multiset.filter_add, exactTaken_add]
  rfl

omit [DecidableEq H] [Blake3 H] in
theorem exists_of_sumOf {type : CellType} {outputs : List (Output H)}
    (some_sum : sumOf type outputs ≠ 0) :
    ∃ o ∈ outputs, o.cellType = type ∧ o.capacity ≠ 0 := by
  by_contra none
  push Not at none
  refine some_sum (List.sum_eq_zero fun capacity listed => ?_)
  obtain ⟨o, member, rfl⟩ := List.mem_map.mp listed
  obtain ⟨inside, same⟩ := List.mem_filter.mp member
  exact none o inside (of_decide_eq_true same)

omit [DecidableEq H] [Blake3 H] in
theorem exactOf_filter_le (p : Output H → Bool) (outputs : List (Output H)) :
    exactOf (outputs.filter p) ≤ exactOf outputs := by
  induction outputs with
  | nil => exact Nat.le_refl 0
  | cons o outputs ih =>
    rw [List.filter_cons]
    split
    · exact Nat.add_le_add_left ih _
    · exact ih.trans (Nat.le_add_left _ _)

omit [DecidableEq H] [Blake3 H] in
theorem exactOf_spendable (outputs : List (Output H)) :
    exactOf (outputs.filter fun o => o.cellType ≠ .stake) =
      exactOf (outputs.filter fun o => o.cellType = .transfer) +
        exactOf (outputs.filter fun o => o.cellType = .coinbase) := by
  induction outputs with
  | nil => rfl
  | cons o outputs ih =>
    cases kind : o.cellType <;> simp [kind, exactOf] at ih ⊢ <;> omega

omit [DecidableEq H] in
theorem exactTaken_withIds (p : Output H → Bool) (c : Cell H) :
    exactTaken ((c.withIds : Multiset (CellId H × Output H)).filter fun x => p x.2) =
      exactOf (c.outputs.filter p) := by
  have outputs : c.withIds.map Prod.snd = c.outputs := by
    simp [Cell.withIds, Function.comp_def]
  rw [← outputs, List.filter_map]
  simp [exactTaken, exactOf, Function.comp_def]

end Sums

section Cell
variable {c : Cell H} (few : exactOf c.outputs < 2 ^ 64)
include few

omit [DecidableEq H] in
/-- What a cell adds to the spendable total. -/
theorem spendable_withIds : spendable (c.withIds : Multiset (CellId H × Output H)) =
    (sumOf .transfer c.outputs + sumOf .coinbase c.outputs).toNat := by
  have exact_sum := exactTaken_withIds (fun o => o.cellType ≠ .stake) c
  have small := exactOf_filter_le (fun o => o.cellType ≠ .stake) c.outputs
  rw [exactOf_spendable] at exact_sum small
  rw [UInt64.toNat_add, sumOf_toNat, sumOf_toNat, ← Nat.add_mod,
    Nat.mod_eq_of_lt (Nat.lt_of_le_of_lt small few), ← exact_sum]
  simp [spendable]

omit [DecidableEq H] in
theorem staked_withIds : staked (c.withIds : Multiset (CellId H × Output H)) =
    (sumOf .stake c.outputs).toNat := by
  have exact_sum := exactTaken_withIds (fun o => o.cellType = .stake) c
  have small := exactOf_filter_le (fun o => o.cellType = .stake) c.outputs
  rw [sumOf_toNat, Nat.mod_eq_of_lt (Nat.lt_of_le_of_lt small few), ← exact_sum]
  simp [staked]

end Cell

/-- The totals of a state are those of the outputs that are not consumed. Its live cells
have their own ids as keys and consume from each other. -/
structure Tallied (s : State H) : Prop where
  keyed : ∀ e ∈ s.liveCells.entries, e.1 = e.2.produced
  covered : ∀ e ∈ s.liveCells.entries, ∀ id ∈ e.2.consumed, ∃ e' ∈ s.liveCells.entries, id ∈ e'.1
  spending : s.totalSpendingCapacity.toNat = spendable (unspent s.liveCells.entries)
  staking : s.totalStakingCapacity.toNat = staked (unspent s.liveCells.entries)

section Turn
variable {live : Entries H} {c : Cell H}

/-- Under the ids that a cell produces, what it lets consume is found by the ids alone. -/
theorem taken_filter (keyed : ∀ e ∈ live, e.1 = e.2.produced) (input : CellIds H) :
    taken input live = (outputsOf live).filter fun x => x.1 ∈ input := by
  rw [taken, outputsOf, Multiset.filter_bind]
  apply Multiset.bind_congr
  intro e member
  rw [State.consumedFrom_eq, keyed e member, Multiset.filter_coe]
  congr 1
  apply List.filter_congr
  intro x listed
  have own : x.1 ∈ e.2.produced := Cell.mem_withIds listed
  simp [own]

/-- What a careful cell consumes was not consumed before. -/
theorem unspent_split (keyed : ∀ e ∈ live, e.1 = e.2.produced)
    (once : ∀ e ∈ live, Disjoint e.2.consumed c.consumed) :
    unspent live = taken c.consumed live + (unspent live).filter fun x => x.1 ∉ c.consumed := by
  have found : taken c.consumed live = (unspent live).filter fun x => x.1 ∈ c.consumed := by
    rw [taken_filter keyed, unspent, Multiset.filter_filter]
    refine Multiset.filter_congr fun x _ => ⟨fun consumed => ⟨consumed, ?_⟩, And.left⟩
    exact fun e member old => Finset.disjoint_left.mp (once e member) old consumed
  rw [found, Multiset.filter_add_not]

/-- The new outputs are not consumed, and what the cell consumes is. -/
theorem unspent_cons (own : ∀ x ∈ c.withIds, x.1 ∉ c.consumed ∧ ∀ e ∈ live, x.1 ∉ e.2.consumed) :
    unspent (⟨c.produced, c⟩ ::ₘ live) =
      c.withIds + (unspent live).filter fun x => x.1 ∉ c.consumed := by
  rw [unspent, outputsOf, Multiset.cons_bind, Multiset.filter_add, unspent, Multiset.filter_filter]
  simp only [Multiset.forall_mem_cons]
  congr 1
  exact Multiset.filter_eq_self.mpr fun x listed => own x (Multiset.mem_coe.mp listed)

/-- The ids that a new cell produces are not consumed. -/
theorem Tallied.own_ids [StakeCodec] (injective : Function.Injective (Cell.hash : Cell H → H))
    (ids : ∀ (h h' : H) i j, CellId.fromOutput h i = CellId.fromOutput h' j → h = h')
    {s : State H} (tallied : Tallied s) (admits : Admits s.liveCells.entries c) :
    ∀ x ∈ c.withIds, x.1 ∉ c.consumed ∧ ∀ e ∈ s.liveCells.entries, x.1 ∉ e.2.consumed := by
  intro x listed
  have unknown : ∀ e ∈ s.liveCells.entries, x.1 ∉ e.1 := by
    intro e member inside
    rw [tallied.keyed e member] at inside
    have other : c ≠ e.2 := by
      rintro rfl
      exact admits.fresh e member (tallied.keyed e member)
    exact Finset.disjoint_left.mp (Cell.produced_disjoint injective ids other)
      (Cell.mem_withIds listed) inside
  constructor
  · intro consumed
    obtain ⟨y, found, same⟩ := Multiset.mem_map.mp (admits.accepts.defined x.1 consumed)
    obtain ⟨_, e, member, keyed, _⟩ := mem_taken.mp found
    exact unknown e member (same ▸ keyed)
  · intro e member consumed
    obtain ⟨e', member', inside⟩ := tallied.covered e member x.1 consumed
    exact unknown e' member' inside

/-- The capacity that a careful cell consumes is what is taken from the spendable total. -/
theorem Careful.spent_toNat (careful : Careful live c)
    (small : exactTaken (taken c.consumed live) < 2 ^ 64) :
    (spent live c).toNat = exactTaken (taken c.consumed live) := by
  unfold spent
  split
  · rw [capacityOf_toNat, Nat.mod_eq_of_lt small]
  · rename_i minted
    rw [careful.minting (exists_of_sumOf minted)]
    rfl

theorem Careful.staked_taken (careful : Careful live c) : staked (taken c.consumed live) = 0 := by
  rw [staked, Multiset.filter_eq_nil.mpr careful.unstaked]
  rfl

theorem Careful.spendable_taken (careful : Careful live c) :
    spendable (taken c.consumed live) = exactTaken (taken c.consumed live) := by
  rw [spendable, Multiset.filter_eq_self.mpr careful.unstaked]

end Turn

/-- The cells of a block with the states that they are applied to. -/
def turns [StakeCodec] (order : Listing (CellIds H)) :
    List (Cell H) → State H → List (State H × Cell H)
  | [], _ => []
  | c :: rest, s =>
    (s, c) :: match s.applyCell order c with
      | .ok s => turns order rest s
      | .error _ => []

namespace Ledger

/-- A condition on every cell of a block at its turn. -/
def EachTurn (condition : Entries H → Cell H → Prop) (l : Ledger H) (x : BlockOrder H × Block H) :
    Prop :=
  ∀ cells ∈ (State.orderedCells x.1.dependencies x.2).toOption,
    Along condition (entriesOf l.cells) cells

instance (condition : Entries H → Cell H → Prop) [∀ live c, Decidable (condition live c)]
    (l : Ledger H) (x : BlockOrder H × Block H) : Decidable (l.EachTurn condition x) :=
  inferInstanceAs (Decidable (∀ cells ∈ (State.orderedCells x.1.dependencies x.2).toOption, _))

/-- The totals are those of the outputs of the ledger that are not consumed. -/
def Exact (l : Ledger H) : Prop :=
  l.state.totalSpendingCapacity.toNat = spendable (unspent (entriesOf l.cells)) ∧
    l.state.totalStakingCapacity.toNat = staked (unspent (entriesOf l.cells))

end Ledger

section Run
variable [StakeCodec] (injective : Function.Injective (Cell.hash : Cell H → H))
  (ids : ∀ (h h' : H) i j, CellId.fromOutput h i = CellId.fromOutput h' j → h = h')
include injective ids

/-- A careful cell keeps the totals right and takes no more than there is. -/
theorem Tallied.cell {s : State H} {c : Cell H} (tallied : Tallied s)
    (admits : Admits s.liveCells.entries c) (fits : Fits s.liveCells.entries c)
    (careful : Careful s.liveCells.entries c) :
    spent s.liveCells.entries c ≤ s.totalSpendingCapacity ∧ Tallied (s.after c) := by
  obtain ⟨small, few, spendable_fits, staked_fits⟩ := fits
  have amount := careful.spent_toNat small
  have before := unspent_split tallied.keyed careful.once
  have after := unspent_cons (tallied.own_ids injective ids admits)
  -- the balance of both kinds of outputs
  have spending : s.totalSpendingCapacity.toNat = (spent s.liveCells.entries c).toNat +
      spendable ((unspent s.liveCells.entries).filter fun x => x.1 ∉ c.consumed) := by
    have both := congrArg spendable before
    rw [tallied.spending, both, spendable_add, careful.spendable_taken, amount]
  have staking : s.totalStakingCapacity.toNat =
      staked ((unspent s.liveCells.entries).filter fun x => x.1 ∉ c.consumed) := by
    have both := congrArg staked before
    rw [tallied.staking, both, staked_add, careful.staked_taken, Nat.zero_add]
  rw [after, spendable_add, spendable_withIds few] at spendable_fits
  rw [after, staked_add, staked_withIds few] at staked_fits
  have enough : spent s.liveCells.entries c ≤ s.totalSpendingCapacity := by
    rw [UInt64.le_iff_toNat_le, spending]
    exact Nat.le_add_right _ _
  refine ⟨enough, ?_, ?_, ?_, ?_⟩
  · rw [State.entries_after admits, Multiset.forall_mem_cons]
    exact ⟨rfl, tallied.keyed⟩
  · intro e member id consumed
    have known : ∃ e' ∈ s.liveCells.entries, id ∈ e'.1 := by
      rw [State.entries_after admits] at member
      rcases Multiset.mem_cons.mp member with rfl | old
      · obtain ⟨x, found, rfl⟩ := Multiset.mem_map.mp (admits.accepts.defined id consumed)
        obtain ⟨_, e', there, inside, _⟩ := mem_taken.mp found
        exact ⟨e', there, inside⟩
      · exact tallied.covered e old id consumed
    obtain ⟨e', there, inside⟩ := known
    rw [State.entries_after admits]
    exact ⟨e', Multiset.mem_cons_of_mem there, inside⟩
  · rw [State.entries_after admits, after, spendable_add, spendable_withIds few, State.after,
      UInt64.toNat_add, UInt64.toNat_sub_of_le _ _ enough]
    omega
  · rw [State.entries_after admits, after, staked_add, staked_withIds few, State.after,
      UInt64.toNat_add]
    omega

theorem Tallied.cells {order : Listing (CellIds H)} {cells : List (Cell H)} {s s' : State H}
    (tallied : Tallied s) (applied : State.applyCells order cells s = .ok s')
    (fits : Along Fits s.liveCells.entries cells)
    (careful : Along Careful s.liveCells.entries cells) :
    (∀ t ∈ turns order cells s, spent t.1.liveCells.entries t.2 ≤ t.1.totalSpendingCapacity) ∧
      Tallied s' := by
  induction cells generalizing s with
  | nil =>
    cases applied
    exact ⟨nofun, tallied⟩
  | cons c cells ih =>
    obtain ⟨t, one, rest⟩ := State.applyCells_cons applied
    obtain ⟨admits, _, rfl⟩ := (State.applyCell_iff order s c).mp one
    obtain ⟨enough, tallied'⟩ := tallied.cell injective ids admits fits.1 careful.1
    have fits := fits.2
    have careful := careful.2
    rw [← State.entries_after admits] at fits careful
    obtain ⟨later, final⟩ := ih tallied' rest fits careful
    refine ⟨?_, final⟩
    rw [turns, one]
    exact List.forall_mem_cons.mpr ⟨enough, later⟩

/-- One block on a ledger with the right totals. -/
theorem Tallied.block {l l' : Ledger H} {x : BlockOrder H × Block H} (recorded : l.Recorded)
    (tallied : Tallied l.state) (fits : l.EachTurn Fits x) (careful : l.EachTurn Careful x)
    (taken : l.step x = some l') :
    (∀ cells ∈ (State.orderedCells x.1.dependencies x.2).toOption,
      ∀ t ∈ turns x.1.liveCells cells l.state,
        spent t.1.liveCells.entries t.2 ≤ t.1.totalSpendingCapacity) ∧ Tallied l'.state := by
  obtain ⟨cells, listed, _, applied⟩ := Ledger.step_ok taken
  have fits := fits cells (mem_toOption.mpr listed)
  have careful := careful cells (mem_toOption.mpr listed)
  rw [← recorded.entries] at fits careful
  obtain ⟨enough, tallied'⟩ := tallied.cells injective ids applied fits careful
  refine ⟨fun cells' again => ?_, tallied'⟩
  cases listed.symm.trans (mem_toOption.mp again)
  exact enough

/-- In a run whose sums are all in range, and whose cells consume no stake, nothing twice
and no capacity where they mint, the totals are right in every state, and nothing is
taken from the spendable total that is not there. -/
theorem totals_exact {steps : List (Ledger H × BlockOrder H × Block H)} {last : Ledger H}
    (run : Run Ledger.step Ledger.new steps last) (fits : Meets (Ledger.EachTurn Fits) steps)
    (careful : Meets (Ledger.EachTurn Careful) steps) :
    (∀ l ∈ states steps last, l.Exact) ∧
      ∀ x ∈ steps, ∀ cells ∈ (State.orderedCells x.2.1.dependencies x.2.2).toOption,
        ∀ t ∈ turns x.2.1.liveCells cells x.1.state,
          spent t.1.liveCells.entries t.2 ≤ t.1.totalSpendingCapacity := by
  have both : Meets (fun l x => l.EachTurn Fits x ∧ l.EachTurn Careful x) steps :=
    fun x listed => ⟨fits x listed, careful x listed⟩
  have every := (run.relates _ both (fun l => l.Recorded ∧ Tallied l.state) (fun _ _ => True)
    ⟨⟨rfl, rfl⟩, ⟨nofun, nofun, rfl, rfl⟩⟩ (fun _ => trivial) (fun _ _ _ _ _ => trivial) (by
      rintro l x l' ⟨recorded, tallied⟩ ⟨fits, careful⟩ taken
      obtain ⟨_, tallied'⟩ := tallied.block injective ids recorded fits careful taken
      exact ⟨⟨recorded.step taken, tallied'⟩, trivial⟩)).2
  constructor
  · intro l there
    obtain ⟨⟨recorded, tallied⟩, _⟩ := every l there
    rw [Ledger.Exact, ← recorded.entries]
    exact ⟨tallied.spending, tallied.staking⟩
  · intro x listed
    obtain ⟨l', taken⟩ := run.taken x listed
    obtain ⟨⟨recorded, tallied⟩, _⟩ :=
      every x.1 (List.mem_append_left _ (List.mem_map_of_mem listed))
    exact (tallied.block injective ids recorded (fits x listed) (careful x listed) taken).1

end Run

section Sample

instance (live : Entries H) (c : Cell H) : Decidable (Fits live c) :=
  inferInstanceAs (Decidable (_ ∧ _))

instance (live : Entries H) (c : Cell H) : Decidable (Careful live c) :=
  decidable_of_iff
    ((∀ x ∈ taken c.consumed live, x.2.cellType ≠ .stake) ∧
      (∀ e ∈ live, Disjoint e.2.consumed c.consumed) ∧
      ((∃ o ∈ c.outputs, o.cellType = .coinbase ∧ o.capacity ≠ 0) →
        exactTaken (taken c.consumed live) = 0))
    ⟨fun h => ⟨h.1, h.2.1, h.2.2⟩, fun h => ⟨h.unstaked, h.once, h.minting⟩⟩

/-- A cell that stakes the first outputs of some cells for the node with the id 0. -/
def stake (spent : List (Cell Digest)) (capacity : UInt64) : Cell Digest :=
  { pay spent 0 with outputs := [⟨capacity, .stake, List.replicate 32 0, ⟨0⟩⟩] }

/-- A stake is paid out: the totals do not move, though it is spendable again. The
spendable total is 0 when the stake is taken from it. -/
theorem stake_paid_out : ∃ steps last, Run Ledger.step (Ledger.new : Ledger Digest) steps last ∧
    Meets (Ledger.EachTurn Fits) steps ∧
    last.state.totalSpendingCapacity = 0 ∧ last.state.totalStakingCapacity = 100 ∧
    spendable (unspent (entriesOf last.cells)) = 100 ∧
    staked (unspent (entriesOf last.cells)) = 0 := by
  have found : (runBlocks [[mint 100], [stake [mint 100] 100],
      [pay [stake [mint 100] 100] 100]]).any (fun r => decide (
        (∀ x ∈ r.1, Ledger.EachTurn Fits x.1 x.2) ∧
        r.2.state.totalSpendingCapacity = 0 ∧ r.2.state.totalStakingCapacity = 100 ∧
        spendable (unspent (entriesOf r.2.cells)) = 100 ∧
        staked (unspent (entriesOf r.2.cells)) = 0)) = true := by
    decide +kernel
  obtain ⟨steps, last, run, facts⟩ := exec_any found
  obtain ⟨fits, totals⟩ := of_decide_eq_true facts
  exact ⟨steps, last, run, fits, totals⟩

/-- A coin is minted, a part of it is paid and what is paid is staked. -/
theorem totals_exact_staked : ∃ steps last, Run Ledger.step Ledger.new steps last ∧
    stake [pay [mint 100] 90] 80 ∈ last.cells ∧ ∀ l ∈ states steps last, l.Exact := by
  have found : (runBlocks [[mint 100, mint 50], [pay [mint 100] 90],
      [stake [pay [mint 100] 90] 80]]).any (fun r => decide (
        stake [pay [mint 100] 90] 80 ∈ r.2.cells ∧ (∀ x ∈ r.1, Ledger.EachTurn Fits x.1 x.2) ∧
        ∀ x ∈ r.1, Ledger.EachTurn Careful x.1 x.2)) = true := by
    decide +kernel
  obtain ⟨steps, last, run, facts⟩ := exec_any found
  obtain ⟨member, fits, careful⟩ := of_decide_eq_true facts
  exact ⟨steps, last, run, member,
    (totals_exact hash_injective fromOutput_hash run fits careful).1⟩

end Sample
end Subzero.Alpha
