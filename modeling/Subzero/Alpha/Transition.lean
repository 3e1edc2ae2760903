import Mathlib.Algebra.BigOperators.Group.Multiset.Basic
import Mathlib.Data.Multiset.Bind
import Subzero.Alpha.State
import Subzero.Graph.Ordering

/-! What the transition of the alpha chain computes, whatever the order of iteration.
The live cells are a multiset of entries. Applying a cell succeeds if no check refuses
it, and the state after it is the old one with the sums over its outputs added. -/
namespace Subzero.Alpha
variable {H : Type}
variable {ordered : List (Cell H)} {order : Listing (CellIds H)} {block : Block H}
variable {cells : List (Cell H)} {outputs : List (Output H)} {s s' : State H} {input : CellIds H}
  {cell : Cell H}

/-- Cells with their keys, in no order. -/
abbrev Entries (H : Type) := Multiset (Σ _ : CellIds H, Cell H)

section Outputs
variable [StakeCodec]

/-- The capacities of the outputs of one type, added up as the code adds them. -/
def sumOf (type : CellType) (outputs : List (Output H)) : UInt64 :=
  ((outputs.filter fun o => o.cellType = type).map Output.capacity).sum

/-- The validator of a stake output. -/
def validatorOf (output : Output H) : Option (Id × UInt64) :=
  match output.cellType, StakeCodec.nodeId output.data with
  | .stake, .ok nodeId => some (nodeId, output.capacity)
  | _, _ => none

/-- The data of every stake output is a stake state. -/
def Decoded (outputs : List (Output H)) : Prop :=
  ∀ o ∈ outputs, o.cellType = .stake → (StakeCodec.nodeId o.data).isOk = true

instance (outputs : List (Output H)) : Decidable (Decoded outputs) :=
  inferInstanceAs (Decidable (∀ o ∈ outputs, _))

/-- Coinbase outputs need the height 0. -/
def Timely (height : UInt64) (outputs : List (Output H)) : Prop :=
  ∀ o ∈ outputs, o.cellType = .coinbase → height = 0

/-- The capacities of a cell that consumes `capacity`: it spends some of it, or it
mints and does nothing else. -/
def Balanced (capacity : UInt64) (outputs : List (Output H)) : Prop :=
  sumOf .coinbase outputs = 0 ∧ 0 < capacity ∧
      sumOf .transfer outputs + sumOf .stake outputs ≤ capacity ∨
    0 < sumOf .coinbase outputs ∧ sumOf .transfer outputs = 0 ∧ sumOf .stake outputs = 0

instance (capacity : UInt64) (outputs : List (Output H)) : Decidable (Balanced capacity outputs) :=
  inferInstanceAs (Decidable (_ ∨ _))

omit [StakeCodec] in
theorem sumOf_cons (type : CellType) (o : Output H) (outputs : List (Output H)) :
    sumOf type (o :: outputs) =
      (if o.cellType = type then o.capacity else 0) + sumOf type outputs := by
  by_cases same : o.cellType = type <;> simp [sumOf, same]

omit [StakeCodec] in
theorem sumOf_none {type : CellType} (none : ∀ o ∈ outputs, o.cellType ≠ type) :
    sumOf type outputs = 0 := by
  have empty : outputs.filter (fun o => o.cellType = type) = [] := by
    rw [List.filter_eq_nil_iff]
    intro o member same
    exact none o member (of_decide_eq_true same)
  rw [sumOf, empty]
  rfl

omit [StakeCodec] in
theorem Timely.height_zero {height : UInt64} (timely : Timely height outputs)
    (minted : sumOf .coinbase outputs ≠ 0) : height = 0 := by
  by_contra late
  exact minted (sumOf_none fun o member coinbase => late (timely o member coinbase))

/-- What the loop over the outputs adds up. -/
theorem produce_iff {height : UInt64} (made : Production) {made' : Production} :
    State.produce height outputs made = .ok made' ↔
      Timely height outputs ∧ Decoded outputs ∧
      made' = ⟨made.coinbase + sumOf .coinbase outputs, made.staking + sumOf .stake outputs,
        made.produced + sumOf .transfer outputs,
        made.validators ++ outputs.filterMap validatorOf⟩ := by
  induction outputs generalizing made with
  | nil =>
    simp only [State.produce, Except.ok.injEq, Timely, Decoded, sumOf, List.not_mem_nil,
      false_implies, implies_true, true_and, List.filter_nil, List.map_nil, List.sum_nil, add_zero,
      List.filterMap_nil, List.append_nil]
    exact eq_comm
  | cons o outputs ih =>
    have timely : Timely height (o :: outputs) ↔
        (o.cellType = .coinbase → height = 0) ∧ Timely height outputs := List.forall_mem_cons
    have decoded : Decoded (o :: outputs) ↔
        (o.cellType = .stake → (StakeCodec.nodeId o.data).isOk = true) ∧ Decoded outputs :=
      List.forall_mem_cons
    rw [State.produce, timely, decoded]
    simp only [sumOf_cons, List.filterMap_cons, validatorOf]
    cases o.cellType with
    | coinbase =>
      by_cases start : height = 0
      · subst start
        simp [ih, add_assoc]
      · simp [start]
    | transfer => simp [ih, add_assoc]
    | stake =>
      cases StakeCodec.nodeId o.data with
      | error text => simp [Except.isOk, Except.toBool]
      | ok nodeId => simp [ih, add_assoc, Except.isOk, Except.toBool]

end Outputs

section Consumed
variable [DecidableEq H] [Blake3 H]

/-- The cells under the ids that they produce. -/
def entriesOf (cells : List (Cell H)) : Entries H :=
  (cells.map fun c => ⟨c.produced, c⟩ : List (Σ _ : CellIds H, Cell H))

/-- The outputs of the entries that are inputs, with their ids. -/
def taken (input : CellIds H) (live : Entries H) : Multiset (CellId H × Output H) :=
  live.bind fun e => (State.consumedFrom input e.1 e.2 : List (CellId H × Output H))

def capacityOf (outputs : Multiset (CellId H × Output H)) : UInt64 :=
  (outputs.map fun x => x.2.capacity).sum

/-- The loop over the live cells finds these outputs in some order. -/
theorem coe_consumed (order : Listing (CellIds H)) (s : State H) (input : CellIds H) :
    (s.consumed order input : Multiset (CellId H × Output H)) =
      taken input s.liveCells.entries := by
  have keys : (order.list s.liveCells.keys : Multiset (CellIds H)) =
      s.liveCells.entries.map Sigma.fst := by
    have same : (order.list s.liveCells.keys : Multiset (CellIds H)) = s.liveCells.keys.val := by
      rw [Multiset.Nodup.ext (Multiset.coe_nodup.mpr (order.nodup _)) s.liveCells.keys.nodup]
      exact fun key => order.mem _ key
    exact same
  unfold State.consumed taken
  rw [← Multiset.coe_bind, keys, Multiset.bind_map]
  apply Multiset.bind_congr
  intro e member
  have known : s.liveCells.lookup e.1 = some e.2 := Finmap.lookup_eq_some_iff.mpr member
  rw [known]

theorem mem_taken {live : Entries H} {x : CellId H × Output H} :
    x ∈ taken input live ↔ x.1 ∈ input ∧ ∃ e ∈ live, x.1 ∈ e.1 ∧ x ∈ e.2.withIds := by
  simp only [taken, Multiset.mem_bind, Multiset.mem_coe, State.consumedFrom_eq, List.mem_filter,
    Finset.mem_inter, decide_eq_true_eq]
  constructor
  · rintro ⟨e, member, listed, inside, keyed⟩
    exact ⟨inside, e, member, keyed, listed⟩
  · rintro ⟨inside, e, member, keyed, listed⟩
    exact ⟨e, member, listed, inside, keyed⟩

theorem entriesOf_cons (cell : Cell H) (cells : List (Cell H)) :
    entriesOf (cell :: cells) = ⟨cell.produced, cell⟩ ::ₘ entriesOf cells := rfl

theorem entriesOf_append (cells cells' : List (Cell H)) :
    entriesOf (cells ++ cells') = entriesOf cells + entriesOf cells' := by
  simp [entriesOf]

theorem entriesOf_perm {cells cells' : List (Cell H)} (same : cells.Perm cells') :
    entriesOf cells = entriesOf cells' :=
  Multiset.coe_eq_coe.mpr (same.map _)

/-- Nothing is consumed from the cells that do not produce an input. -/
theorem taken_apart (apart : ∀ d ∈ cells, ¬ (d.produced ∩ input).Nonempty) :
    taken input (entriesOf cells) = 0 := by
  rw [Multiset.eq_zero_iff_forall_notMem]
  intro x found
  obtain ⟨inside, e, member, keyed, _⟩ := mem_taken.mp found
  obtain ⟨d, listed, rfl⟩ := List.mem_map.mp (Multiset.mem_coe.mp member)
  exact apart d listed ⟨x.1, Finset.mem_inter.mpr ⟨keyed, inside⟩⟩

/-- A cell consumes the same at its turn and in the end. -/
theorem taken_turn {cells ordered pre post : List (Cell H)}
    (order : DependencyGraph.Ordered cells ordered) (split : ordered = pre ++ cell :: post)
    (live : Entries H) :
    taken cell.consumed (entriesOf ordered + live) =
      taken cell.consumed (entriesOf pre + live) := by
  have none := taken_apart fun d from_here => order.apart split from_here
  rw [taken] at none
  simp only [split, entriesOf_append, taken, Multiset.add_bind, none, add_zero]

end Consumed

section Checks
variable [DecidableEq H] [Blake3 H]

/-- The checks of a cell that consumes the given outputs. -/
structure Accepts [StakeCodec] (consumed : Multiset (CellId H × Output H)) (cell : Cell H) :
    Prop where
  defined : ∀ id ∈ cell.consumed, id ∈ consumed.map Prod.fst
  typed : ∀ o ∈ cell.outputs, o.cellType ≠ .transfer → ∀ x ∈ consumed, x.2.cellType ≠ o.cellType
  decoded : Decoded cell.outputs
  balanced : Balanced (capacityOf consumed) cell.outputs

/-- The keys stay distinct when the ids are taken away from them. -/
def Writable (live : Entries H) (input : CellIds H) : Prop :=
  ∀ e ∈ live, ∀ e' ∈ live, e.1 \ input = e'.1 \ input → e.1 = e'.1

instance (live : Entries H) (input : CellIds H) : Decidable (Writable live input) :=
  inferInstanceAs (Decidable (∀ e ∈ live, _))

instance [StakeCodec] (consumed : Multiset (CellId H × Output H)) (cell : Cell H) :
    Decidable (Accepts consumed cell) :=
  decidable_of_iff
    ((∀ id ∈ cell.consumed, id ∈ consumed.map Prod.fst) ∧
      (∀ o ∈ cell.outputs, o.cellType ≠ .transfer → ∀ x ∈ consumed, x.2.cellType ≠ o.cellType) ∧
      Decoded cell.outputs ∧ Balanced (capacityOf consumed) cell.outputs)
    ⟨fun h => ⟨h.1, h.2.1, h.2.2.1, h.2.2.2⟩,
      fun h => ⟨h.defined, h.typed, h.decoded, h.balanced⟩⟩

/-- No check refuses the cell, that of the height apart. -/
structure Admits [StakeCodec] (live : Entries H) (cell : Cell H) : Prop where
  accepts : Accepts (taken cell.consumed live) cell
  writable : Writable live cell.consumed
  fresh : ∀ e ∈ live, e.1 ≠ cell.produced

instance [StakeCodec] (live : Entries H) (cell : Cell H) : Decidable (Admits live cell) :=
  decidable_of_iff
    (Accepts (taken cell.consumed live) cell ∧ Writable live cell.consumed ∧
      ∀ e ∈ live, e.1 ≠ cell.produced)
    ⟨fun h => ⟨h.1, h.2.1, h.2.2⟩, fun h => ⟨h.accepts, h.writable, h.fresh⟩⟩

omit [DecidableEq H] [Blake3 H] in
theorem verify_iff {o : Output H} :
    o.verify outputs = .ok () ↔ o.cellType = .transfer ∨ outputs = [] := by
  unfold Output.verify
  cases o.cellType <;> simp

omit [DecidableEq H] [Blake3 H] in
/-- An output that is not a transfer is refused at the first consumed output of its
own type. -/
theorem verifyOutput_iff {o : Output H} {consumed : List (Output H)} :
    State.verifyOutput o [] consumed = .ok () ↔
      o.cellType = .transfer ∨ ∀ x ∈ consumed, x.cellType ≠ o.cellType := by
  -- a transfer has arguments, another output has none as long as it passes
  suffices general : ∀ arguments, o.cellType = .transfer ∨ arguments = [] →
      (State.verifyOutput o arguments consumed = .ok () ↔
        o.cellType = .transfer ∨ ∀ x ∈ consumed, x.cellType ≠ o.cellType) from
    general [] (.inr rfl)
  induction consumed with
  | nil => simp [State.verifyOutput]
  | cons x consumed ih =>
    intro arguments passing
    rw [State.verifyOutput]
    by_cases same : o.cellType = x.cellType
    · simp only [same, if_true]
      cases verified : o.verify (arguments ++ [x]) with
      | error e =>
        have refused : o.cellType ≠ .transfer := by
          intro transfer
          rw [verify_iff.mpr (.inl transfer)] at verified
          cases verified
        simp [← same, refused]
      | ok _ =>
        have transfer : o.cellType = .transfer := by simpa using verify_iff.mp verified
        rw [← same]
        simp [transfer, ih _ (.inl transfer)]
    · simp only [same, if_false, verify_iff.mpr passing, ih arguments passing, List.forall_mem_cons,
        ne_eq, Ne.symm same, not_false_eq_true, true_and]

omit [DecidableEq H] [Blake3 H] in
theorem verifyOutputs_iff {consumed outputs : List (Output H)} :
    State.verifyOutputs consumed outputs = .ok () ↔
      ∀ o ∈ outputs, o.cellType ≠ .transfer → ∀ x ∈ consumed, x.cellType ≠ o.cellType := by
  induction outputs with
  | nil => simp [State.verifyOutputs]
  | cons o outputs ih =>
    rw [State.verifyOutputs, List.forall_mem_cons, ← ih, ← or_iff_not_imp_left,
      ← verifyOutput_iff]
    cases verified : State.verifyOutput o [] consumed with
    | error e => simp
    | ok _ => simp

omit [Blake3 H] in
/-- The map without the ids is written if no key is written twice. -/
theorem writeWithout_iff {live written : HashMap (CellIds H) (Cell H)} {keys : List (CellIds H)}
    (known : ∀ key ∈ keys, key ∈ live) :
    (∃ map, State.writeWithout input live keys written = .ok map) ↔
      (keys.map (· \ input)).Nodup ∧ ∀ key ∈ keys, key \ input ∉ written := by
  induction keys generalizing written with
  | nil => simp [State.writeWithout]
  | cons key keys ih =>
    obtain ⟨there, rest⟩ := List.forall_mem_cons.mp known
    obtain ⟨cell, found⟩ := Finmap.mem_iff.mp there
    have left : (if (input ∩ key).Nonempty then key \ (input ∩ key) else key) = key \ input := by
      split
      · rw [Finset.inter_comm, Finset.sdiff_inter_self_left]
      · rename_i apart
        rw [Finset.not_nonempty_iff_eq_empty, ← Finset.disjoint_iff_inter_eq_empty] at apart
        exact (Finset.sdiff_eq_self_of_disjoint apart.symm).symm
    simp only [State.writeWithout, found, left]
    split
    · rename_i twice
      simp [twice]
    · rename_i once
      rw [ih rest]
      simp only [Finmap.mem_insert, List.map_cons, List.nodup_cons, List.mem_map,
        List.forall_mem_cons, not_or, not_exists, not_and]
      grind

omit [DecidableEq H] [Blake3 H] in
theorem mem_entries_key {live : HashMap (CellIds H) (Cell H)} {key : CellIds H} :
    key ∈ live ↔ ∃ e ∈ live.entries, e.1 = key := by
  rw [Finmap.mem_def]
  exact Multiset.mem_map

omit [Blake3 H] in
theorem removeIntersection_iff (order : Listing (CellIds H)) :
    (∃ map, s.removeIntersection order input = .ok map) ↔ Writable s.liveCells.entries input := by
  have known : ∀ key ∈ order.list s.liveCells.keys, key ∈ s.liveCells := by
    intro key listed
    rwa [order.mem, Finmap.mem_keys] at listed
  have distinct : ((order.list s.liveCells.keys).map (· \ input)).Nodup ↔
      Writable s.liveCells.entries input := by
    rw [List.nodup_map_iff_inj_on (order.nodup _)]
    simp only [order.mem, Finmap.mem_keys, mem_entries_key]
    constructor
    · intro injective e member e' member' same
      exact injective e.1 ⟨e, member, rfl⟩ e'.1 ⟨e', member', rfl⟩ same
    · rintro writable _ ⟨e, member, rfl⟩ _ ⟨e', member', rfl⟩ same
      exact writable e member e' member' same
  rw [State.removeIntersection, writeWithout_iff known, distinct]
  exact and_iff_left fun key _ => Finmap.notMem_empty

/-- A condition on each cell of a list and the entries before it. -/
def Along (condition : Entries H → Cell H → Prop) : Entries H → List (Cell H) → Prop
  | _, [] => True
  | live, cell :: rest =>
    condition live cell ∧ Along condition (⟨cell.produced, cell⟩ ::ₘ live) rest

instance (condition : Entries H → Cell H → Prop) [∀ live cell, Decidable (condition live cell)] :
    (live : Entries H) → (cells : List (Cell H)) → Decidable (Along condition live cells)
  | _, [] => .isTrue trivial
  | live, cell :: rest =>
    have : Decidable (Along condition (⟨cell.produced, cell⟩ ::ₘ live) rest) :=
      instDecidableAlong condition _ rest
    inferInstanceAs (Decidable (condition live cell ∧ _))

/-- The entries before a cell are the old ones and those of the cells before it. -/
theorem along_iff {condition : Entries H → Cell H → Prop} {live : Entries H} :
    Along condition live cells ↔
      ∀ pre cell post, cells = pre ++ cell :: post → condition (entriesOf pre + live) cell := by
  induction cells generalizing live with
  | nil => simp [Along]
  | cons first rest ih =>
    rw [Along, ih]
    constructor
    · rintro ⟨here, later⟩ pre cell post split
      cases pre with
      | nil =>
        obtain ⟨rfl, rfl⟩ := List.cons.inj split
        exact (zero_add live).symm ▸ here
      | cons _ pre =>
        obtain ⟨rfl, rfl⟩ := List.cons.inj split
        have there := later pre cell post rfl
        rwa [Multiset.add_cons, ← Multiset.cons_add, ← entriesOf_cons] at there
    · intro all
      refine ⟨(zero_add live) ▸ all [] first rest rfl, fun pre cell post split => ?_⟩
      have there := all (first :: pre) cell post (by rw [split]; rfl)
      rwa [entriesOf_cons, Multiset.cons_add, ← Multiset.add_cons] at there

/-- What is taken from the spendable total: nothing for a cell that mints. -/
def spent (live : Entries H) (cell : Cell H) : UInt64 :=
  if sumOf .coinbase cell.outputs = 0 then capacityOf (taken cell.consumed live) else 0

end Checks

namespace State
variable [DecidableEq H] [Blake3 H] [StakeCodec]

/-- The state after a cell. -/
def after (s : State H) (cell : Cell H) : State H where
  height := s.height
  totalSpendingCapacity := s.totalSpendingCapacity - spent s.liveCells.entries cell +
    (sumOf .transfer cell.outputs + sumOf .coinbase cell.outputs)
  totalStakingCapacity := s.totalStakingCapacity + sumOf .stake cell.outputs
  validators := s.validators ++ cell.outputs.filterMap validatorOf
  liveCells := s.liveCells.insert cell.produced cell

omit [DecidableEq H] [Blake3 H] [StakeCodec] in
/-- The totals move exactly if the capacities are balanced. -/
theorem settle_iff {capacity : UInt64} {validators : List (Id × UInt64)}
    (timely : Timely s.height outputs) :
    s.settle capacity ⟨sumOf .coinbase outputs, sumOf .stake outputs, sumOf .transfer outputs,
      validators⟩ = .ok s' ↔ Balanced capacity outputs ∧
    s' = { s with
      totalSpendingCapacity := s.totalSpendingCapacity -
        (if sumOf .coinbase outputs = 0 then capacity else 0) +
        (sumOf .transfer outputs + sumOf .coinbase outputs)
      totalStakingCapacity := s.totalStakingCapacity + sumOf .stake outputs } := by
  unfold settle Balanced
  by_cases minted : sumOf .coinbase outputs = 0
  · simp only [minted, and_true, true_and, if_true, UInt64.lt_irrefl, false_and, and_false,
      or_false, if_false, add_zero]
    split
    · rename_i spends
      rw [Except.ok.injEq, and_iff_right ⟨spends.2, spends.1⟩]
      exact eq_comm
    · rename_i exceeds
      simp only [reduceCtorEq, false_iff, not_and]
      exact fun balanced => absurd ⟨balanced.2, balanced.1⟩ exceeds
  · have positive : 0 < sumOf .coinbase outputs := UInt64.pos_iff_ne_zero.mpr minted
    have start : s.height = 0 := timely.height_zero minted
    simp only [minted, and_false, false_and, if_false, false_or, start, positive, true_and,
      sub_zero]
    split
    · rename_i alone
      rw [Except.ok.injEq, and_iff_right alone, alone.1, alone.2, zero_add, add_zero]
      exact eq_comm
    · rename_i mixed
      simp [mixed]

section Cell
variable (order : Listing (CellIds H)) (s : State H) (cell : Cell H)

omit [StakeCodec] in
theorem consumed_capacity :
    (((s.consumed order cell.consumed).map Prod.snd).map Output.capacity).sum =
      capacityOf (taken cell.consumed s.liveCells.entries) := by
  rw [capacityOf, ← coe_consumed order, Multiset.map_coe, Multiset.sum_coe, List.map_map]
  rfl

omit [StakeCodec] in
theorem defined_iff : ((s.consumed order cell.consumed).map Prod.fst).toFinset = cell.consumed ↔
    ∀ id ∈ cell.consumed, id ∈ (taken cell.consumed s.liveCells.entries).map Prod.fst := by
  simp only [Finset.ext_iff, List.mem_toFinset, List.mem_map, Multiset.mem_map,
    ← coe_consumed order, Multiset.mem_coe]
  constructor
  · exact fun same id => (same id).mpr
  · refine fun defined id => ⟨?_, defined id⟩
    rintro ⟨x, found, rfl⟩
    rw [← Multiset.mem_coe, coe_consumed] at found
    exact (mem_taken.mp found).1

omit [StakeCodec] in
theorem verified_iff :
    verifyOutputs ((s.consumed order cell.consumed).map Prod.snd) cell.outputs = .ok () ↔
      ∀ o ∈ cell.outputs, o.cellType ≠ .transfer →
        ∀ x ∈ taken cell.consumed s.liveCells.entries, x.2.cellType ≠ o.cellType := by
  simp only [verifyOutputs_iff, ← coe_consumed order, Multiset.mem_coe, List.forall_mem_map]

omit [StakeCodec] in
theorem fresh_iff : cell.produced ∉ s.liveCells ↔
    ∀ e ∈ s.liveCells.entries, e.1 ≠ cell.produced := by
  rw [mem_entries_key]
  push Not
  rfl

/-- Applying a cell succeeds if no check refuses it, with this state after it. -/
theorem applyCell_iff : s.applyCell order cell = .ok s' ↔
    Admits s.liveCells.entries cell ∧ Timely s.height cell.outputs ∧ s' = s.after cell := by
  constructor
  · intro applied
    unfold applyCell at applied
    simp only at applied
    split at applied
    · cases applied
    · rename_i defined
      split at applied
      · cases applied
      · rename_i verified
        split at applied
        · cases applied
        · rename_i written
          split at applied
          · cases applied
          · rename_i made produced
            split at applied
            · cases applied
            · rename_i new
              obtain ⟨timely, decoded, rfl⟩ := (produce_iff _).mp produced
              simp only [zero_add, List.nil_append, consumed_capacity] at applied
              rw [settle_iff (by exact timely)] at applied
              obtain ⟨balanced, rfl⟩ := applied
              have defined := (defined_iff order s cell).mp (not_not.mp defined)
              have typed := (verified_iff order s cell).mp verified
              exact ⟨⟨⟨defined, typed, decoded, balanced⟩,
                (removeIntersection_iff order).mp ⟨_, written⟩, (fresh_iff s cell).mp new⟩,
                timely, rfl⟩
  · rintro ⟨⟨⟨defined, typed, decoded, balanced⟩, writable, new⟩, timely, rfl⟩
    obtain ⟨map, written⟩ := (removeIntersection_iff order).mpr writable
    have produced := (produce_iff ⟨0, 0, 0, []⟩).mpr ⟨timely, decoded, rfl⟩
    unfold applyCell
    simp only [(defined_iff order s cell).mpr defined, (verified_iff order s cell).mpr typed,
      written, produced, (fresh_iff s cell).mpr new, ne_eq, not_true_eq_false, if_false,
      consumed_capacity, zero_add, List.nil_append]
    rw [settle_iff (by exact timely)]
    exact ⟨balanced, rfl⟩

theorem entries_after {s : State H} {cell : Cell H} (admits : Admits s.liveCells.entries cell) :
    (s.after cell).liveCells.entries = ⟨cell.produced, cell⟩ ::ₘ s.liveCells.entries :=
  Finmap.entries_insert_of_notMem ((fresh_iff s cell).mpr admits.fresh)

end Cell

theorem applyCells_cons (applied : applyCells order (cell :: cells) s = .ok s') :
    ∃ t, s.applyCell order cell = .ok t ∧ applyCells order cells t = .ok s' := by
  rw [applyCells] at applied
  cases one : s.applyCell order cell with
  | error e =>
    rw [one] at applied
    cases applied
  | ok t =>
    rw [one] at applied
    exact ⟨t, rfl, applied⟩

/-- The same over the cells of a block. -/
theorem applyCells_iff (order : Listing (CellIds H)) :
    applyCells order cells s = .ok s' ↔ Along Admits s.liveCells.entries cells ∧
      (∀ c ∈ cells, Timely s.height c.outputs) ∧ s' = cells.foldl after s := by
  induction cells generalizing s with
  | nil =>
    rw [applyCells, Except.ok.injEq]
    simp only [Along, List.not_mem_nil, false_implies, implies_true, true_and, List.foldl_nil]
    exact eq_comm
  | cons cell cells ih =>
    rw [Along, List.forall_mem_cons, List.foldl_cons]
    constructor
    · intro applied
      obtain ⟨t, one, rest⟩ := applyCells_cons applied
      obtain ⟨admits, timely, rfl⟩ := (applyCell_iff order s cell).mp one
      obtain ⟨along, later, same⟩ := ih.mp rest
      rw [entries_after admits] at along
      exact ⟨⟨admits, along⟩, ⟨timely, later⟩, same⟩
    · rintro ⟨⟨admits, along⟩, ⟨timely, later⟩, same⟩
      rw [applyCells, (applyCell_iff order s cell).mpr ⟨admits, timely, rfl⟩]
      rw [← entries_after admits] at along
      exact ih.mpr ⟨along, later, same⟩

/-- The entries after a block: the old ones and those of its cells. -/
theorem entries_foldl (along : Along Admits s.liveCells.entries cells) :
    (cells.foldl after s).liveCells.entries = entriesOf cells + s.liveCells.entries := by
  induction cells generalizing s with
  | nil => exact (zero_add _).symm
  | cons cell cells ih =>
    obtain ⟨admits, later⟩ := along
    rw [← entries_after admits] at later
    rw [List.foldl_cons, ih later, entries_after admits, entriesOf_cons, Multiset.add_cons,
      Multiset.cons_add]

theorem height_foldl (cells : List (Cell H)) (s : State H) :
    (cells.foldl after s).height = s.height := by
  induction cells generalizing s with
  | nil => rfl
  | cons cell cells ih => exact ih _

section Order
open DependencyGraph
variable {cells before : List (Cell H)} {g g' : DependencyGraph H}

omit [StakeCodec] in
theorem insertAll_cons (inserted : insertAll (cell :: cells) g = .ok g') :
    ∃ g₁, g.insert cell = .ok g₁ ∧ insertAll cells g₁ = .ok g' := by
  rw [insertAll] at inserted
  cases one : g.insert cell with
  | error e =>
    rw [one] at inserted
    cases inserted
  | ok g₁ =>
    rw [one] at inserted
    exact ⟨g₁, rfl, inserted⟩

omit [StakeCodec] in
theorem insertAll_built (built : Built before g) (inserted : insertAll cells g = .ok g') :
    Built (before ++ cells) g' := by
  induction cells generalizing before g with
  | nil =>
    cases inserted
    rwa [List.append_nil]
  | cons cell cells ih =>
    obtain ⟨g₁, one, rest⟩ := insertAll_cons inserted
    have fresh : cell.produced ∉ before.map Cell.produced := by
      intro old
      rw [DependencyGraph.insert, if_pos (built.mem.mpr (List.mem_map.mp old))] at one
      cases one
    obtain ⟨g₂, again, built'⟩ := built.insert fresh
    cases one.symm.trans again
    have all := ih built' rest
    rwa [List.append_assoc] at all

omit [StakeCodec] in
/-- Cells with ids of their own are all inserted. -/
theorem insertAll_ok (built : Built before g)
    (distinct : ((before ++ cells).map Cell.produced).Nodup) :
    ∃ g', insertAll cells g = .ok g' := by
  induction cells generalizing before g with
  | nil => exact ⟨g, rfl⟩
  | cons cell cells ih =>
    have fresh : cell.produced ∉ before.map Cell.produced := by
      rw [List.map_append, List.nodup_append] at distinct
      exact fun old => distinct.2.2 _ old _ List.mem_cons_self rfl
    obtain ⟨g₁, one, built'⟩ := built.insert fresh
    rw [insertAll, one]
    refine ih built' ?_
    rwa [List.append_assoc]

omit [StakeCodec] in
/-- A block is put in order by the graph of its cells. -/
theorem orderedCells_graph (listed : orderedCells order block = .ok ordered) :
    ∃ g, insertAll block.cells .new = .ok g ∧ Built block.cells g ∧
      g.topologicalCells order block.cells = .ok ordered := by
  rw [orderedCells] at listed
  cases inserted : insertAll block.cells .new with
  | error e =>
    rw [inserted] at listed
    cases listed
  | ok g =>
    rw [inserted] at listed
    exact ⟨g, rfl, insertAll_built Built.new inserted, listed⟩

omit [StakeCodec] in
/-- The cells of a block that is put in order have ids of their own. -/
theorem orderedCells_ok (listed : orderedCells order block = .ok ordered) :
    (block.cells.map Cell.produced).Nodup ∧ Ordered block.cells ordered := by
  obtain ⟨g, _, built, found⟩ := orderedCells_graph listed
  obtain ⟨ordered', again, sorted⟩ := built.topologicalCells order
  cases found.symm.trans again
  exact ⟨built.distinct, sorted⟩

omit [StakeCodec] in
theorem orderedCells_distinct (order : Listing (CellIds H))
    (distinct : (block.cells.map Cell.produced).Nodup) :
    ∃ ordered, orderedCells order block = .ok ordered := by
  obtain ⟨g, inserted⟩ := insertAll_ok Built.new distinct
  obtain ⟨ordered, found, _⟩ := (insertAll_built Built.new inserted).topologicalCells order
  exact ⟨ordered, by rw [orderedCells, inserted]; exact found⟩

end Order
end State
end Subzero.Alpha
