import Mathlib.Tactic.Abel
import Subzero.Alpha.Fees
import Subzero.Alpha.Permutation
import Subzero.Alpha.Totals

/-! The cells that an operation makes, and the state that they are applied to. An operation
looks at the cell that it spends from; the state looks at all live cells, so that it may
still refuse what the operation has made. -/
namespace Subzero
open Alpha

variable {H : Type} [DecidableEq H] [Blake3 H]
variable {c cell : Cell H} {cells : List (Cell H)}

/-- The inputs of a cell refer to different outputs of another cell. -/
structure Spends (c cell : Cell H) : Prop where
  named : ∀ i ∈ cell.inputs, ∃ o, i.output c = some o
  distinct : ∀ i ∈ cell.inputs, ∀ j ∈ cell.inputs,
    i.outputIndex.index = j.outputIndex.index → i = j

theorem Input.output_some {i : Input H} {o : Output H} :
    i.output c = some o ↔
      i.outputIndex.cellHash = c.hash ∧ c.outputs[i.outputIndex.index.toNat]? = some o := by
  unfold Input.output
  split <;> simp_all

theorem Input.cellId_of_output {i : Input H} {o : Output H} (named : i.output c = some o) :
    i.cellId = CellId.fromOutput c.hash i.outputIndex.index := by
  rw [← (Input.output_some.mp named).1]
  rfl

omit [DecidableEq H] in
theorem Cell.mem_withIds_iff {x : CellId H × Output H} :
    x ∈ c.withIds ↔
      ∃ p, c.outputs[p]? = some x.2 ∧ CellId.fromOutput c.hash (UInt8.ofNat p) = x.1 := by
  simp only [Cell.withIds, List.mem_map, List.mem_zipIdx_iff_getElem?, Prod.exists]
  constructor
  · rintro ⟨o, p, found, rfl⟩
    exact ⟨p, found, rfl⟩
  · rintro ⟨p, found, id⟩
    exact ⟨x.2, p, found, Prod.ext id rfl⟩

section Ids
variable (injective : Function.Injective (Cell.hash : Cell H → H))
  (ids : ∀ (h h' : H) i j, CellId.fromOutput h i = CellId.fromOutput h' j → h = h')
  (own : ∀ h : H, Function.Injective (CellId.fromOutput h))

include injective ids in
/-- Ids of one cell are looked for in that cell only. -/
theorem taken_of_subset (nodup : cells.Nodup) (member : c ∈ cells) {input : CellIds H}
    (inside : input ⊆ c.produced) :
    taken input (entriesOf cells) =
      (c.withIds.filter fun x => x.1 ∈ input : List (CellId H × Output H)) := by
  obtain ⟨pre, post, rfl⟩ := List.append_of_mem member
  obtain ⟨_, others, before⟩ := List.nodup_append.mp nodup
  have after := (List.nodup_cons.mp others).1
  have none : ∀ d : Cell H, d ≠ c → ¬ (d.produced ∩ input).Nonempty := by
    rintro d other ⟨id, both⟩
    obtain ⟨first, second⟩ := Finset.mem_inter.mp both
    exact Finset.disjoint_left.mp (Cell.produced_disjoint injective ids other) first
      (inside second)
  have left : taken input (entriesOf pre) = 0 :=
    taken_apart fun d listed => none d (before d listed c List.mem_cons_self)
  have right : taken input (entriesOf post) = 0 :=
    taken_apart fun d listed => none d fun same => after (same ▸ listed)
  rw [entriesOf_append, entriesOf_cons, taken, Multiset.add_bind, Multiset.cons_bind]
  rw [taken] at left right
  rw [left, right, zero_add, add_zero, State.consumedFrom_eq]
  congr 1
  refine List.filter_congr fun x listed => ?_
  simp [Cell.mem_withIds listed]

include own in
omit [DecidableEq H] in
theorem withIds_nodup (few : c.outputs.length ≤ 2 ^ 8) : (c.withIds.map Prod.fst).Nodup := by
  have positions : c.withIds.map Prod.fst = (List.range c.outputs.length).map fun p =>
      CellId.fromOutput c.hash (UInt8.ofNat p) := by
    rw [Cell.withIds, List.map_map, List.range_eq_range', ← List.zipIdx_map_snd, List.map_map]
    rfl
  rw [positions]
  refine List.nodup_range.map_on fun j first k second => ?_
  exact fromOutput_position own few (List.mem_range.mp first) (List.mem_range.mp second)

theorem Spends.consumed_subset (spends : Spends c cell) : cell.consumed ⊆ c.produced := by
  intro id consumes
  obtain ⟨i, listed, rfl⟩ := Finset.mem_image.mp consumes
  obtain ⟨o, named⟩ := spends.named i listed
  rw [Input.cellId_of_output named, Cell.mem_produced]
  obtain ⟨inside, _⟩ := List.getElem?_eq_some_iff.mp (Input.output_some.mp named).2
  exact ⟨i.outputIndex.index.toNat, inside, by rw [UInt8.ofNat_toNat]⟩

include injective ids own

/-- What a cell takes, found from its inputs. -/
theorem Spends.taken_eq (nodup : cells.Nodup) (member : c ∈ cells) (few : c.outputs.length ≤ 2 ^ 8)
    (spends : Spends c cell) :
    taken cell.consumed (entriesOf cells) = cell.inputs.val.filterMap fun i =>
      if i ∈ cell.inputs then (i.output c).map fun o => (i.cellId, o) else none := by
  rw [taken_of_subset injective ids nodup member spends.consumed_subset]
  have left : (c.withIds.filter fun x => x.1 ∈ cell.consumed).Nodup :=
    (withIds_nodup own few).of_map.filter _
  rw [Multiset.Nodup.ext (Multiset.coe_nodup.mpr left)]
  · intro x
    rw [Multiset.mem_coe, List.mem_filter, Cell.mem_withIds_iff, Multiset.mem_filterMap,
      decide_eq_true_eq]
    constructor
    · rintro ⟨⟨p, found, id⟩, consumes⟩
      obtain ⟨i, listed, same⟩ := Finset.mem_image.mp consumes
      obtain ⟨o, named⟩ := spends.named i listed
      obtain ⟨inside, _⟩ := List.getElem?_eq_some_iff.mp found
      refine ⟨i, listed, ?_⟩
      -- the id tells the position
      rw [← id, Input.cellId_of_output named] at same
      have index := own c.hash same
      have output := (Input.output_some.mp named).2
      rw [index, UInt8.toNat_ofNat_of_lt' (inside.trans_le few), found] at output
      rw [if_pos listed, named, Option.map_some, Input.cellId_of_output named, index, id,
        ← Option.some.inj output]
    · rintro ⟨i, listed, made⟩
      rw [if_pos (Finset.mem_val.mp listed)] at made
      obtain ⟨o, named, rfl⟩ := Option.map_eq_some_iff.mp made
      refine ⟨⟨i.outputIndex.index.toNat, (Input.output_some.mp named).2, ?_⟩,
        Finset.mem_image_of_mem _ listed⟩
      rw [Input.cellId_of_output named, UInt8.ofNat_toNat]
  · refine Multiset.Nodup.filterMap _ (fun i j x first second => ?_) cell.inputs.nodup
    rw [Option.mem_def] at first second
    split at first
    · rename_i listed
      split at second
      · rename_i listed'
        obtain ⟨o, named, rfl⟩ := Option.map_eq_some_iff.mp first
        obtain ⟨o', named', same⟩ := Option.map_eq_some_iff.mp second
        have equal := congrArg Prod.fst same
        simp only [Input.cellId_of_output named, Input.cellId_of_output named'] at equal
        exact spends.distinct i listed j listed' (own c.hash equal).symm
      · cases second
    · cases first

theorem Spends.mem_taken (nodup : cells.Nodup) (member : c ∈ cells) (few : c.outputs.length ≤ 2 ^ 8)
    (spends : Spends c cell) {x : CellId H × Output H} : x ∈ taken cell.consumed (entriesOf cells) ↔
      ∃ i ∈ cell.inputs, i.cellId = x.1 ∧ i.output c = some x.2 := by
  rw [spends.taken_eq injective ids own nodup member few, Multiset.mem_filterMap]
  constructor
  · rintro ⟨i, listed, made⟩
    rw [if_pos (Finset.mem_val.mp listed)] at made
    obtain ⟨o, named, rfl⟩ := Option.map_eq_some_iff.mp made
    exact ⟨i, listed, rfl, named⟩
  · rintro ⟨i, listed, id, named⟩
    refine ⟨i, listed, ?_⟩
    rw [if_pos listed, named, Option.map_some, id]

/-- The state takes the capacity that the operation has spent. -/
theorem Spends.exactTaken_eq (nodup : cells.Nodup) (member : c ∈ cells)
    (few : c.outputs.length ≤ 2 ^ 8) (spends : Spends c cell) :
    exactTaken (taken cell.consumed (entriesOf cells)) = c.spentFrom cell := by
  have listed : ∀ inputs : Multiset (Input H), (∀ i ∈ inputs, i ∈ cell.inputs) →
      exactTaken (inputs.filterMap fun i =>
        if i ∈ cell.inputs then (i.output c).map fun o => (i.cellId, o) else none) =
      (inputs.map (Input.capacity c)).sum := by
    intro inputs inside
    induction inputs using Multiset.induction with
    | empty => rfl
    | cons i inputs ih =>
      obtain ⟨here, rest⟩ := Multiset.forall_mem_cons.mp inside
      obtain ⟨o, named⟩ := spends.named i here
      rw [Multiset.map_cons, Multiset.sum_cons, ← ih rest, Multiset.filterMap_cons_some _ i _
        (by rw [if_pos here, named, Option.map_some])]
      simp [exactTaken, Input.capacity, named]
  rw [spends.taken_eq injective ids own nodup member few]
  exact listed cell.inputs.val fun i => Finset.mem_val.mp

end Ids

/-- What the operations see to: the cell has inputs and outputs, pays no more than it spends,
and its stakes can be read. -/
structure Pays [StakeCodec] (c cell : Cell H) : Prop extends Spends c cell where
  few : c.outputs.length ≤ 2 ^ 8
  positive : 0 < c.spentFrom cell
  bounded : c.spentFrom cell < 2 ^ 64
  covered : exactOf cell.outputs ≤ c.spentFrom cell
  pays : cell.outputs ≠ []
  plain : ∀ o ∈ cell.outputs, o.cellType ≠ .coinbase
  decoded : Decoded cell.outputs

/-- No output is of the type of a spent one, transfers apart. -/
def Retyped (c cell : Cell H) : Prop :=
  ∀ o ∈ cell.outputs, o.cellType ≠ .transfer →
    ∀ i ∈ cell.inputs, ∀ spent ∈ i.output c, spent.cellType ≠ o.cellType

section Pays
variable [StakeCodec] (injective : Function.Injective (Cell.hash : Cell H → H))
  (ids : ∀ (h h' : H) i j, CellId.fromOutput h i = CellId.fromOutput h' j → h = h')
  (own : ∀ h : H, Function.Injective (CellId.fromOutput h))
variable {cells : List (Cell H)} {c cell : Cell H}

omit [StakeCodec] [DecidableEq H] [Blake3 H] in
theorem sumOf_plain {outputs : List (Output H)} (plain : ∀ o ∈ outputs, o.cellType ≠ .coinbase) :
    (sumOf .transfer outputs + sumOf .stake outputs).toNat = exactOf outputs % 2 ^ 64 := by
  have sums := sums_toNat outputs
  rwa [sumOf_none plain, add_zero] at sums

theorem Pays.consumes (pays : Pays c cell) : cell.consumed.Nonempty := by
  rw [Finset.nonempty_iff_ne_empty, ne_eq, Ledger.consumed_empty]
  intro none
  have positive := pays.positive
  rw [Cell.spentFrom, none, Finset.sum_empty] at positive
  exact absurd positive (Nat.lt_irrefl 0)

include injective ids own

theorem Pays.accepts_iff (pays : Pays c cell) (nodup : cells.Nodup) (member : c ∈ cells) :
    Accepts (taken cell.consumed (entriesOf cells)) cell ↔ Retyped c cell := by
  have found := pays.toSpends.exactTaken_eq injective ids own nodup member pays.few
  have listed := fun x => pays.toSpends.mem_taken injective ids own nodup member pays.few (x := x)
  constructor
  · intro accepts o output other i input spent named
    exact accepts.typed o output other (i.cellId, spent) ((listed _).mpr ⟨i, input, rfl, named⟩)
  · intro retyped
    refine ⟨fun id consumes => ?_, fun o output other x taken => ?_, pays.decoded, .inl ?_⟩
    · obtain ⟨i, input, rfl⟩ := Finset.mem_image.mp consumes
      obtain ⟨o, named⟩ := pays.named i input
      exact Multiset.mem_map.mpr ⟨(i.cellId, o), (listed _).mpr ⟨i, input, rfl, named⟩, rfl⟩
    · obtain ⟨i, input, _, named⟩ := (listed x).mp taken
      exact retyped o output other i input x.2 named
    · have capacity : (capacityOf (taken cell.consumed (entriesOf cells))).toNat =
          c.spentFrom cell := by
        rw [capacityOf_toNat, found, Nat.mod_eq_of_lt pays.bounded]
      have positive := pays.positive
      have covered := pays.covered
      have bounded := pays.bounded
      refine ⟨sumOf_none pays.plain, ?_, ?_⟩
      · rw [UInt64.lt_iff_toNat_lt, capacity, UInt64.toNat_zero]
        exact positive
      · rw [UInt64.le_iff_toNat_le, sumOf_plain pays.plain, capacity, Nat.mod_eq_of_lt (by omega)]
        exact covered

omit own in
/-- Two keys fall together only if the cell takes all that there is to spend in one of them,
and the other is that of a cell without outputs. -/
theorem Pays.writable_iff (pays : Pays c cell) (member : c ∈ cells) :
    Writable (entriesOf cells) cell.consumed ↔
      (c.produced ⊆ cell.consumed → ∀ d ∈ cells, d.outputs ≠ []) := by
  have inside := pays.toSpends.consumed_subset
  obtain ⟨id, consumes⟩ := pays.consumes
  have filled : c.produced ≠ ∅ := Finset.ne_empty_of_mem (inside consumes)
  -- the cell spends from no other key, so another one has no ids if none of them are left
  have absorbed : ∀ d ∈ cells, d ≠ c → d.produced ⊆ cell.consumed → d.produced = ∅ := by
    intro d _ other all
    refine Finset.eq_empty_of_forall_notMem fun id produces => ?_
    exact Finset.disjoint_left.mp (Cell.produced_disjoint injective ids other) produces
      (inside (all produces))
  rw [Alpha.writable_iff injective ids]
  constructor
  · intro apart all d listed none
    have empty : d.produced = ∅ := Cell.produced_eq_empty.mpr none
    have same := apart c member d listed all (by rw [empty]; exact Finset.empty_subset _)
    exact filled (same.trans empty)
  · intro whole d listed d' listed' all all'
    by_cases here : d = c
    · subst here
      by_cases there : d' = d
      · rw [there]
      · exact absurd (Cell.produced_eq_empty.mp (absorbed d' listed' there all'))
          (whole all d' listed')
    · have empty := absorbed d listed here all
      by_cases there : d' = c
      · subst there
        exact absurd (Cell.produced_eq_empty.mp empty) (whole all' d listed)
      · rw [empty, absorbed d' listed' there all']

omit own in
theorem Pays.fresh_iff (pays : Pays c cell) :
    (∀ e ∈ entriesOf cells, e.1 ≠ cell.produced) ↔ cell ∉ cells := by
  constructor
  · intro fresh listed
    exact fresh _ (mem_entriesOf.mpr ⟨cell, listed, rfl⟩) rfl
  · intro unknown e first same
    obtain ⟨d, listed, rfl⟩ := mem_entriesOf.mp first
    have other : d ≠ cell := fun equal => unknown (equal ▸ listed)
    have disjoint := Cell.produced_disjoint injective ids other
    have same : d.produced = cell.produced := same
    rw [same, disjoint_self] at disjoint
    exact pays.pays (Cell.produced_eq_empty.mp disjoint)

/-- The state admits a cell that an operation has made, unless it knows it, its types do not
go with those of what it spends, or the keys of the live cells fall together. -/
theorem Pays.admits_iff (pays : Pays c cell) (nodup : cells.Nodup) (member : c ∈ cells) :
    Admits (entriesOf cells) cell ↔ Retyped c cell ∧ cell ∉ cells ∧
      (c.produced ⊆ cell.consumed → ∀ d ∈ cells, d.outputs ≠ []) := by
  rw [← pays.accepts_iff injective ids own nodup member, ← pays.fresh_iff injective ids,
    ← pays.writable_iff injective ids member]
  exact ⟨fun admits => ⟨admits.accepts, admits.fresh, admits.writable⟩,
    fun all => ⟨all.1, all.2.2, all.2.1⟩⟩

end Pays

section Operations
variable {H : Type} [LinearOrder H] [Blake3 H] [KeyDigest H] [StakeCodec]

/-- A cell that one of the operations returns. -/
inductive Made (build : Build) (c : Cell H) (amount : UInt64) (key : Keypair H) : Cell H → Prop
  | transfer {recipient changeAddress : H} {cell : Cell H} :
      (TransferOperation.mk c recipient changeAddress amount).transfer build key =
        some (.ok cell) → Made build c amount key cell
  | stake {nodeId : Id} {address : H} {cell : Cell H} :
      (StakeOperation.mk c nodeId address amount).stake build key = some (.ok cell) →
        Made build c amount key cell

variable {build : Build} {c : Cell H} {amount : UInt64} {key : Keypair H}

omit [Blake3 H] [KeyDigest H] [StakeCodec] in
theorem mem_payOut {mainOutput : UInt64 → Output H} {changeAddress : H} {r : ConsumeResult H}
    {o : Output H} (listed : o ∈ (payOut mainOutput changeAddress r).outputs) :
    o = mainOutput r.consumed ∨ o = transferOutput changeAddress (r.residue - FEE) := by
  have found := (List.perm_insertionSort _ _).mem_iff.mp listed
  split at found <;> simp_all

omit [Blake3 H] [KeyDigest H] [StakeCodec] in
theorem main_mem_payOut (mainOutput : UInt64 → Output H) (changeAddress : H)
    (r : ConsumeResult H) :
    mainOutput r.consumed ∈ (payOut mainOutput changeAddress r).outputs := by
  refine (List.perm_insertionSort _ _).mem_iff.mpr ?_
  split <;> simp

theorem consumeFromCell_positive (bounded : exactOf (c.outputsOfOwner key.hash) < 2 ^ 64)
    {r : ConsumeResult H} (returned : consumeFromCell build c amount key = some (.ok r)) :
    0 < amount.toNat := by
  rw [consumeFromCell_eq bounded (consumeFromCell_loop returned)] at returned
  refine Nat.pos_of_ne_zero fun none => ?_
  rw [if_pos (UInt64.toNat_inj.mp none)] at returned
  cases Option.some.inj returned

theorem payOut_pays (few : c.outputs.length ≤ 255)
    (bounded : exactOf (c.outputsOfOwner key.hash) < 2 ^ 64) {mainOutput : UInt64 → Output H}
    (capacity : ∀ n, (mainOutput n).capacity = n) (plain : ∀ n, (mainOutput n).cellType ≠ .coinbase)
    (decoded : ∀ n, (mainOutput n).cellType = .stake →
      (StakeCodec.nodeId (mainOutput n).data).isOk = true) {changeAddress : H}
    {r : ConsumeResult H} (returned : consumeFromCell build c amount key = some (.ok r)) :
    Pays c (payOut mainOutput changeAddress r) := by
  have conserves := consumeFromCell_conserves few bounded returned
  have positive := consumeFromCell_positive bounded returned
  obtain ⟨consumed, k, covers, _⟩ := consumeFromCell_covers bounded returned
  have spent : c.spentFrom (payOut mainOutput changeAddress r) =
      amount.toNat + r.residue.toNat := by
    rw [payOut_spent c conserves.distinct, conserves.total, consumed]
  have input : ∀ i ∈ (payOut mainOutput changeAddress r).inputs, i ∈ r.inputs :=
    fun i => List.mem_toFinset.mp
  constructor
  · constructor
    · intro i listed
      obtain ⟨o, named, _⟩ := conserves.owned i (input i listed)
      exact ⟨o, named⟩
    · exact fun i first j second =>
        List.inj_on_of_nodup_map conserves.distinct (input i first) (input j second)
  · omega
  · omega
  · have part : exactOf ((c.outputsOfOwner key.hash).take k) ≤
        exactOf (c.outputsOfOwner key.hash) :=
      ((List.take_sublist k _).map _).sum_le_sum fun _ _ => Nat.zero_le _
    rw [spent, ← covers.reached]
    omega
  · rw [payOut_outputs capacity, spent, consumed]
    exact Nat.add_le_add_left (change_le _) _
  · exact List.ne_nil_of_mem (main_mem_payOut mainOutput changeAddress r)
  · intro o listed
    rcases mem_payOut listed with rfl | rfl
    · exact plain _
    · simp [transferOutput]
  · intro o listed stake
    rcases mem_payOut listed with rfl | rfl
    · exact decoded _ stake
    · cases stake

theorem Made.pays (few : c.outputs.length ≤ 255)
    (bounded : exactOf (c.outputsOfOwner key.hash) < 2 ^ 64)
    (decodes : ∀ id : Id, StakeCodec.nodeId (Encoding.hashBytes id.bytes) = .ok id)
    {cell : Cell H} (made : Made build c amount key cell) : Pays c cell := by
  cases made with
  | transfer returned =>
    obtain ⟨r, consumed, rfl⟩ := map_returned returned
    exact payOut_pays few bounded (fun _ => rfl) (fun _ => by simp [transferOutput])
      (fun _ stake => by cases stake) consumed
  | stake returned =>
    obtain ⟨r, consumed, rfl⟩ := map_returned returned
    refine payOut_pays few bounded (fun _ => rfl) (fun _ => by simp [stakeOutput])
      (fun _ _ => ?_) consumed
    simp only [stakeOutput, decodes]
    rfl

omit [KeyDigest H] in
/-- What the totals lose to a cell that pays: the capacity that it spends and does not pay. -/
theorem Pays.totals (injective : Function.Injective (Cell.hash : Cell H → H))
    (ids : ∀ (h h' : H) i j, CellId.fromOutput h i = CellId.fromOutput h' j → h = h')
    (own : ∀ h : H, Function.Injective (CellId.fromOutput h)) {cell : Cell H}
    (pays : Pays c cell) {cells : List (Cell H)} (nodup : cells.Nodup) (member : c ∈ cells)
    {s : State H} (entries : s.liveCells.entries = entriesOf cells) :
    (s.after cell).totalSpendingCapacity + (s.after cell).totalStakingCapacity +
        UInt64.ofNat (c.spentFrom cell - exactOf cell.outputs) =
      s.totalSpendingCapacity + s.totalStakingCapacity := by
  have coinbase := sumOf_none pays.plain
  have paid := sumOf_plain pays.plain
  have found := pays.toSpends.exactTaken_eq injective ids own nodup member pays.few
  have capacity : (capacityOf (taken cell.consumed (entriesOf cells))).toNat =
      c.spentFrom cell := by
    rw [capacityOf_toNat, found, Nat.mod_eq_of_lt pays.bounded]
  have covered := pays.covered
  have bounded := pays.bounded
  rw [Nat.mod_eq_of_lt (by omega)] at paid
  have balance : sumOf .transfer cell.outputs + sumOf .stake cell.outputs +
      UInt64.ofNat (c.spentFrom cell - exactOf cell.outputs) =
      capacityOf (taken cell.consumed (entriesOf cells)) := by
    apply UInt64.toNat_inj.mp
    rw [UInt64.toNat_add, paid, capacity, UInt64.toNat_ofNat']
    omega
  simp only [State.after, spent, coinbase, if_true, add_zero, entries]
  rw [← balance]
  abel

omit [KeyDigest H] [StakeCodec] in
theorem Alpha.Ledger.Recorded.nodup {l : Ledger H} (recorded : l.Recorded) : l.cells.Nodup := by
  have entries := l.state.liveCells.nodupKeys.nodup
  rw [recorded.entries] at entries
  exact (Multiset.coe_nodup.mp entries).of_map

omit [KeyDigest H] in
/-- A block of one cell is applied exactly if the live cells admit it. -/
theorem Alpha.Ledger.step_one_iff
    (ids : ∀ (h h' : H) i j, CellId.fromOutput h i = CellId.fromOutput h' j → h = h')
    (ranked : Ranked H) {l l' : Ledger H} (recorded : l.Recorded) {order : BlockOrder H}
    {block : Block H} {cell : Cell H} (only : block.cells = [cell]) :
    l.step (order, block) = some l' ↔
      Admits (entriesOf l.cells) cell ∧ l' = ⟨l.state.after cell, l.cells ++ [cell]⟩ := by
  have distinct : (block.cells.map Cell.produced).Nodup := by
    rw [only]
    exact List.nodup_singleton _
  obtain ⟨ordered, listed⟩ := State.orderedCells_distinct order.dependencies distinct
  obtain rfl : ordered = [cell] := by
    have all := (State.orderedCells_ok listed).2.ranked ranked ids distinct
    rw [only] at all
    exact List.perm_singleton.mp all
  have timely : ∀ d ∈ [cell], Timely l.state.height d.outputs := fun _ _ _ _ _ => recorded.height
  have applied : ∀ s, l.state.apply order block = .ok s ↔
      Admits (entriesOf l.cells) cell ∧ s = l.state.after cell := by
    intro s
    rw [State.apply, listed]
    simp only [State.applyCells_iff, recorded.entries, and_iff_right timely, Along, and_true]
    rfl
  rw [Ledger.step, listed]
  cases result : l.state.apply order block with
  | error e =>
    have refused : ¬ Admits (entriesOf l.cells) cell := by
      intro admitted
      rw [(applied _).mpr ⟨admitted, rfl⟩] at result
      cases result
    simp [refused]
  | ok s =>
    obtain ⟨admitted, rfl⟩ := (applied s).mp result
    simp [admitted, eq_comm]

/-- A cell that an operation makes from a live cell is applied, in a block of its own, exactly
if it is not there yet, its types go with those of what it spends, and it does not use up the
live cell while there is a cell without outputs. The totals then lose what it spends and does
not pay, which is the fee or what was too little for it. -/
theorem operation_applied_iff (injective : Function.Injective (Cell.hash : Cell H → H))
    (ids : ∀ (h h' : H) i j, CellId.fromOutput h i = CellId.fromOutput h' j → h = h')
    (own : ∀ h : H, Function.Injective (CellId.fromOutput h)) (ranked : Ranked H)
    (decodes : ∀ id : Id, StakeCodec.nodeId (Encoding.hashBytes id.bytes) = .ok id)
    {steps : List (Ledger H × BlockOrder H × Block H)} {l : Ledger H}
    (run : Run Ledger.step Ledger.new steps l) (live : c ∈ l.cells)
    (few : c.outputs.length ≤ 255) (bounded : exactOf (c.outputsOfOwner key.hash) < 2 ^ 64)
    {cell : Cell H} (made : Made build c amount key cell) (order : BlockOrder H)
    {block : Block H} (only : block.cells = [cell]) :
    ((∃ l', l.step (order, block) = some l') ↔ Retyped c cell ∧ cell ∉ l.cells ∧
      (c.produced ⊆ cell.consumed → ∀ d ∈ l.cells, d.outputs ≠ [])) ∧
    ∀ l', l.step (order, block) = some l' → l'.cells = l.cells ++ [cell] ∧
      l'.state.validators = l.state.validators ++ cell.outputs.filterMap validatorOf ∧
      l'.state.totalSpendingCapacity + l'.state.totalStakingCapacity +
          UInt64.ofNat (c.spentFrom cell - exactOf cell.outputs) =
        l.state.totalSpendingCapacity + l.state.totalStakingCapacity := by
  have recorded := Ledger.recorded run
  have pays := made.pays few bounded decodes
  have admits := pays.admits_iff injective ids own recorded.nodup live
  constructor
  · rw [← admits]
    constructor
    · rintro ⟨l', taken⟩
      exact ((Ledger.step_one_iff ids ranked recorded only).mp taken).1
    · exact fun admitted => ⟨_, (Ledger.step_one_iff ids ranked recorded only).mpr ⟨admitted, rfl⟩⟩
  · intro l' taken
    obtain ⟨_, rfl⟩ := (Ledger.step_one_iff ids ranked recorded only).mp taken
    exact ⟨rfl, rfl, pays.totals injective ids own recorded.nodup live recorded.entries⟩

end Operations

section Sample

/-- The id that was staked for is read back. -/
theorem nodeId_hashBytes (id : Id) :
    StakeCodec.nodeId (Encoding.hashBytes id.bytes) = .ok id := by
  have length : (Encoding.hashBytes id.bytes).length = 32 := by
    simp [Encoding.hashBytes, Storage.HashBytes.length_toBytes]
  have value : (Encoding.hashBytes id.bytes).foldl (fun n byte => n * 2 ^ 8 + byte.toNat) 0 =
      id.bytes.toNat := by
    have fits : id.bytes.toNat < 256 ^ 32 := id.bytes.isLt
    have read := ofBigEndian_bigEndian fits
    rw [ofBigEndian] at read
    rw [Encoding.hashBytes, List.foldl_map]
    exact read
  simp only [StakeCodec.nodeId, length, le_refl, if_true]
  rw [List.take_of_length_le length.le, value, BitVec.ofNat_toNat, BitVec.setWidth_eq]

/-- A transfer out of the purse: 18 of 55 are paid, and the fee is lost. -/
theorem operation_applied_purse :
    ∃ steps l cell l', Run Ledger.step Ledger.new steps l ∧ purse ∈ l.cells ∧
      Made .checked purse 18 (signer 1) cell ∧
      l.step (ascendingIds, ⟨none, 1, ⟨0⟩, [cell]⟩) = some l' ∧ l'.cells = l.cells ++ [cell] ∧
      l'.state.totalSpendingCapacity + l'.state.totalStakingCapacity + 3 =
        l.state.totalSpendingCapacity + l.state.totalStakingCapacity := by
  have made : (valueOf ((TransferOperation.mk purse (signer 2).hash (signer 1).hash 18).transfer
      .checked (signer 1))).any (fun cell => (runBlocks [[purse]]).any fun r => decide (
        purse ∈ r.2.cells ∧ cell ∉ r.2.cells ∧ (∀ d ∈ r.2.cells, d.outputs ≠ []) ∧
        (∀ o ∈ cell.outputs, o.cellType = .transfer) ∧
        UInt64.ofNat (purse.spentFrom cell - exactOf cell.outputs) = 3)) = true := by
    decide +kernel
  obtain ⟨cell, returned, found⟩ := (Option.any_eq_true _ _).mp made
  obtain ⟨steps, l, run, facts⟩ := exec_any found
  obtain ⟨live, fresh, filled, transfers, fee⟩ := of_decide_eq_true facts
  have made : Made .checked purse 18 (signer 1) cell := .transfer (valueOf_eq_some.mp returned)
  have only : (⟨none, 1, ⟨0⟩, [cell]⟩ : Block Digest).cells = [cell] := rfl
  obtain ⟨applied, effect⟩ := operation_applied_iff hash_injective fromOutput_hash
    fromOutput_injective ranked_digest nodeId_hashBytes run live (by decide +kernel)
    (by decide +kernel) made ascendingIds only
  obtain ⟨l', taken⟩ := applied.mpr ⟨fun o output other => absurd (transfers o output) other, fresh,
    fun _ => filled⟩
  obtain ⟨cells, _, totals⟩ := effect l' taken
  exact ⟨steps, l, cell, l', run, live, made, taken, cells, fee ▸ totals⟩

end Sample
end Subzero
