import Subzero.Alpha.Spending

/-! Exact sums of capacities. The comparison that keeps a cell from minting is made on
sums that wrap, so it says nothing about how often they have wrapped. -/
namespace Subzero.Alpha
variable {H : Type}

/-- The capacities of some outputs, added up without a bound. -/
def exactOf (outputs : List (Output H)) : Nat := (outputs.map fun o => o.capacity.toNat).sum

def exactTaken (consumed : Multiset (CellId H × Output H)) : Nat :=
  (consumed.map fun x => x.2.capacity.toNat).sum

/-- The live cells and those of the block: what a cell of the block can consume. -/
def available [DecidableEq H] [Blake3 H] (s : State H) (block : Block H) : Entries H :=
  entriesOf block.cells + s.liveCells.entries

/-- A running sum is the exact one modulo 2 ^ 64. -/
theorem sum_toNat (capacities : Multiset UInt64) :
    capacities.sum.toNat = (capacities.map UInt64.toNat).sum % 2 ^ 64 := by
  induction capacities using Multiset.induction with
  | empty => rfl
  | cons a capacities ih =>
    rw [Multiset.sum_cons, UInt64.toNat_add, ih, Multiset.map_cons, Multiset.sum_cons,
      Nat.add_mod_mod]

theorem capacityOf_toNat (consumed : Multiset (CellId H × Output H)) :
    (capacityOf consumed).toNat = exactTaken consumed % 2 ^ 64 := by
  rw [capacityOf, sum_toNat, Multiset.map_map]
  rfl

theorem sumOf_toNat (type : CellType) (outputs : List (Output H)) :
    (sumOf type outputs).toNat = exactOf (outputs.filter fun o => o.cellType = type) % 2 ^ 64 := by
  rw [sumOf, ← Multiset.sum_coe, sum_toNat, Multiset.map_coe, Multiset.sum_coe, List.map_map]
  rfl

/-- The three running sums together are the wrapped sum. -/
theorem sums_toNat (outputs : List (Output H)) :
    (sumOf .transfer outputs + sumOf .stake outputs + sumOf .coinbase outputs).toNat =
      exactOf outputs % 2 ^ 64 := by
  induction outputs with
  | nil => rfl
  | cons o outputs ih =>
    simp only [exactOf, List.map_cons, List.sum_cons, sumOf_cons] at ih ⊢
    rw [← Nat.add_mod_mod, ← ih, ← UInt64.toNat_add]
    cases o.cellType <;> simp <;> congr 1 <;> ac_rfl

/-- Two sums compare as their wrapped values do, once they have wrapped as often. -/
theorem le_iff_wraps {a b : Nat} (wrapped : a % 2 ^ 64 ≤ b % 2 ^ 64) :
    a ≤ b ↔ a / 2 ^ 64 ≤ b / 2 ^ 64 := by
  omega

/-- A cell without coinbase outputs is accepted if its wrapped sums are in order. -/
theorem Accepts.wrapped [DecidableEq H] [Blake3 H] [StakeCodec]
    {consumed : Multiset (CellId H × Output H)} {c : Cell H} (accepts : Accepts consumed c)
    (plain : hasCoinbaseOutput c = false) :
    exactOf c.outputs % 2 ^ 64 ≤ exactTaken consumed % 2 ^ 64 := by
  have none : ∀ o ∈ c.outputs, o.cellType ≠ .coinbase := by
    simpa [hasCoinbaseOutput] using plain
  have zero := sumOf_none none
  rw [← sums_toNat, ← capacityOf_toNat, zero, add_zero]
  rcases accepts.balanced with ⟨_, _, spends⟩ | ⟨mints, _⟩
  · exact UInt64.le_iff_toNat_le.mp spends
  · rw [zero] at mints
    exact absurd mints (UInt64.lt_irrefl 0)

/-- In a block that is applied, a cell without coinbase outputs produces at most what it
consumes exactly if its outputs wrap no more often than what it consumes. -/
theorem outputs_covered_iff [DecidableEq H] [Blake3 H] [StakeCodec] (ranked : Ranked H)
    (ids : ∀ (h h' : H) i j, CellId.fromOutput h i = CellId.fromOutput h' j → h = h')
    {order : BlockOrder H} {s s' : State H} {block : Block H}
    (applied : s.apply order block = .ok s') :
    ∀ c ∈ block.cells, hasCoinbaseOutput c = false →
      (exactOf c.outputs ≤ exactTaken (taken c.consumed (available s block)) ↔
        exactOf c.outputs / 2 ^ 64 ≤
          exactTaken (taken c.consumed (available s block)) / 2 ^ 64) := by
  intro c member plain
  rw [State.apply] at applied
  cases listed : State.orderedCells order.dependencies block with
  | error e =>
    rw [listed] at applied
    cases applied
  | ok cells =>
    rw [listed] at applied
    obtain ⟨distinct, sorted⟩ := State.orderedCells_ok listed
    have all := sorted.ranked ranked ids distinct
    obtain ⟨pre, post, split⟩ := List.append_of_mem (all.mem_iff.mpr member)
    obtain ⟨along, _⟩ := (State.applyCells_iff _).mp applied
    have accepts := (along_iff.mp along pre c post split).accepts
    rw [← taken_turn sorted split, entriesOf_perm all] at accepts
    exact le_iff_wraps (accepts.wrapped plain)

section Sample

/-- Two outputs of half the range each, for the coin of a cell. -/
def inflate (spent : Cell Digest) : Cell Digest :=
  ⟨{⟨⟨spent.hash, 0⟩, ⟨[], []⟩⟩},
    [⟨2 ^ 63, .transfer, [], ⟨0⟩⟩, ⟨2 ^ 63, .transfer, [], ⟨0⟩⟩]⟩

/-- A coin is minted and spent in the first block. -/
def firstBlock (spend : Cell Digest → Cell Digest) : Block Digest :=
  ⟨none, 0, ⟨0⟩, [mint 100, spend (mint 100)]⟩

/-- The outputs add up to 0 and are worth 2 ^ 64. -/
theorem outputs_wrap : ∃ s', State.new.apply ascendingIds (firstBlock inflate) = .ok s' ∧
    ∃ c ∈ (firstBlock inflate).cells, hasCoinbaseOutput c = false ∧
      exactTaken (taken c.consumed (available .new (firstBlock inflate))) = 100 ∧
      exactOf c.outputs = 2 ^ 64 := by
  have applied : (State.new.apply ascendingIds (firstBlock inflate)).toOption.isSome = true := by
    decide +kernel
  obtain ⟨s', found⟩ := Option.isSome_iff_exists.mp applied
  refine ⟨s', mem_toOption.mp found, inflate (mint 100), ?_⟩
  decide +kernel

theorem outputs_covered_iff_spent : ∃ s',
    State.new.apply ascendingIds (firstBlock fun c => pay [c] 90) = .ok s' ∧
      ∀ c ∈ (firstBlock fun c => pay [c] 90).cells, hasCoinbaseOutput c = false →
        exactOf c.outputs ≤
          exactTaken (taken c.consumed (available .new (firstBlock fun c => pay [c] 90))) := by
  have applied : (State.new.apply ascendingIds
      (firstBlock fun c => pay [c] 90)).toOption.isSome = true := by
    decide +kernel
  obtain ⟨s', found⟩ := Option.isSome_iff_exists.mp applied
  have applied := mem_toOption.mp found
  refine ⟨s', applied, fun c member plain => ?_⟩
  apply (outputs_covered_iff ranked_digest fromOutput_hash applied c member plain).mpr
  revert c
  decide +kernel

end Sample
end Subzero.Alpha
