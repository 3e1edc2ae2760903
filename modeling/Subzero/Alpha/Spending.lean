import Subzero.Alpha.Transition
import Subzero.Hail.Sample
import Subzero.Lib.Run

/-! Spending in the alpha chain. The ids that a cell consumes stay live, so a property
that needs them gone holds only as long as nothing is spent. -/
namespace Subzero.Alpha
variable {H : Type} [DecidableEq H] [Blake3 H]
variable {order : Listing (CellIds H)} {s s' : State H}

namespace State

/-- What a cell does to the state when it is applied. -/
structure Applies [StakeCodec] (order : Listing (CellIds H)) (cell : Cell H) (s s' : State H) :
    Prop where
  defined : ((s.consumed order cell.consumed).map Prod.fst).toFinset = cell.consumed
  verified : verifyOutputs ((s.consumed order cell.consumed).map Prod.snd) cell.outputs = .ok ()
  fresh : cell.produced ∉ s.liveCells
  live : s'.liveCells = s.liveCells.insert cell.produced cell
  height : s'.height = s.height
  made : ∃ made, produce s.height cell.outputs ⟨0, 0, 0, []⟩ = .ok made ∧
    s'.validators = s.validators ++ made.validators

theorem applyCell_ok [StakeCodec] {cell : Cell H} (applied : s.applyCell order cell = .ok s') :
    Applies order cell s s' := by
  obtain ⟨admits, timely, rfl⟩ := (applyCell_iff order s cell).mp applied
  exact {
    defined := (defined_iff order s cell).mpr admits.accepts.defined
    verified := (verified_iff order s cell).mpr admits.accepts.typed
    fresh := (fresh_iff s cell).mpr admits.fresh
    live := rfl
    height := rfl
    made := ⟨_, (produce_iff _).mpr ⟨timely, admits.accepts.decoded, rfl⟩, rfl⟩ }

theorem mem_consumedFrom {input liveIds : CellIds H} {live : Cell H}
    {x : CellId H × Output H} (member : x ∈ consumedFrom input liveIds live) :
    x.1 ∈ liveIds := by
  rw [consumedFrom_eq, List.mem_filter, decide_eq_true_eq] at member
  exact (Finset.mem_inter.mp member.2).2

/-- Only ids in the keys of the live cells can be consumed. -/
theorem consumed_live {input : CellIds H} {x : CellId H × Output H}
    (member : x ∈ s.consumed order input) : ∃ key ∈ s.liveCells, x.1 ∈ key := by
  obtain ⟨key, _, found⟩ := List.mem_flatMap.mp member
  split at found
  · rename_i live known
    exact ⟨key, Finmap.mem_of_lookup_eq_some known, mem_consumedFrom found⟩
  · cases found

theorem Applies.inputs_live [StakeCodec] {cell : Cell H} (applies : Applies order cell s s') :
    ∀ id ∈ cell.consumed, ∃ key ∈ s.liveCells, id ∈ key := by
  intro id member
  rw [← applies.defined, List.mem_toFinset, List.mem_map] at member
  obtain ⟨x, taken, rfl⟩ := member
  exact consumed_live taken

theorem Applies.live_grows [StakeCodec] {cell : Cell H} (applies : Applies order cell s s')
    {key : CellIds H} (known : key ∈ s.liveCells) : key ∈ s'.liveCells := by
  rw [applies.live, Finmap.mem_insert]
  exact .inr known

/-- Over the cells of a block the keys only grow, and what a cell consumes is in one
of them at the end. -/
theorem applyCells_ok [StakeCodec] {cells : List (Cell H)}
    (applied : applyCells order cells s = .ok s') :
    (∀ key ∈ s.liveCells, key ∈ s'.liveCells) ∧
      ∀ c ∈ cells, ∀ id ∈ c.consumed, ∃ key ∈ s'.liveCells, id ∈ key := by
  induction cells generalizing s with
  | nil =>
    cases applied
    exact ⟨fun _ known => known, by simp⟩
  | cons cell rest ih =>
    obtain ⟨t, one, rest⟩ := applyCells_cons applied
    have applies := applyCell_ok one
    obtain ⟨grows, spent⟩ := ih rest
    refine ⟨fun key known => grows key (applies.live_grows known), ?_⟩
    refine List.forall_mem_cons.mpr ⟨fun id member => ?_, spent⟩
    obtain ⟨key, known, inside⟩ := applies.inputs_live id member
    exact ⟨key, grows key (applies.live_grows known), inside⟩

end State

/-- A state with the cells that led to it, in the order in which they were applied. -/
structure Ledger (H : Type) where
  state : State H
  cells : List (Cell H)

namespace Ledger
variable {l : Ledger H}

def new : Ledger H := ⟨.new, []⟩

/-- A block is applied with success. -/
def step [StakeCodec] (l : Ledger H) : BlockOrder H × Block H → Option (Ledger H)
  | (order, block) =>
    match l.state.apply order block, State.orderedCells order.dependencies block with
    | .ok s, .ok cells => some ⟨s, l.cells ++ cells⟩
    | _, _ => none

/-- No id is consumed by two cells, and no consumed id is live. -/
def Spent (l : Ledger H) : Prop :=
  (∀ c ∈ l.cells, ∀ c' ∈ l.cells, c ≠ c' → Disjoint c.consumed c'.consumed) ∧
    ∀ c ∈ l.cells, ∀ id ∈ c.consumed, ∀ key ∈ l.state.liveCells, id ∉ key

/-- The cells of the block that are put in order have no inputs. -/
def Inputless (x : BlockOrder H × Block H) : Prop :=
  match State.orderedCells x.1.dependencies x.2 with
  | .ok cells => ∀ c ∈ cells, c.inputs = ∅
  | .error _ => True

instance (x : BlockOrder H × Block H) : Decidable (Inputless x) :=
  match h : State.orderedCells x.1.dependencies x.2 with
  | .ok cells => decidable_of_iff (∀ c ∈ cells, c.inputs = ∅) (by simp [Inputless, h])
  | .error _ => .isTrue (by simp [Inputless, h])

theorem consumed_empty {c : Cell H} : c.consumed = ∅ ↔ c.inputs = ∅ := by
  unfold Cell.consumed fromInputs
  exact Finset.image_eq_empty

theorem step_ok [StakeCodec] {l l' : Ledger H} {x : BlockOrder H × Block H}
    (taken : l.step x = some l') :
    ∃ cells, State.orderedCells x.1.dependencies x.2 = .ok cells ∧ l'.cells = l.cells ++ cells ∧
      State.applyCells x.1.liveCells cells l.state = .ok l'.state := by
  obtain ⟨order, block⟩ := x
  simp only [step, State.apply] at taken
  cases listed : State.orderedCells order.dependencies block with
  | error e =>
    rw [listed] at taken
    cases taken
  | ok cells =>
    rw [listed] at taken
    simp only at taken
    split at taken
    · rename_i s cells' applied same
      cases same
      cases taken
      exact ⟨cells, rfl, rfl, applied⟩
    · cases taken

/-- The cells of a ledger are live, each under the ids that it produces, and the height
is the one of the start. -/
structure Recorded (l : Ledger H) : Prop where
  entries : l.state.liveCells.entries = entriesOf l.cells
  height : l.state.height = 0

theorem Recorded.step [StakeCodec] {l l' : Ledger H} {x : BlockOrder H × Block H}
    (recorded : l.Recorded) (taken : l.step x = some l') : l'.Recorded := by
  obtain ⟨cells, _, appended, applied⟩ := step_ok taken
  obtain ⟨along, _, same⟩ := (State.applyCells_iff _).mp applied
  constructor
  · rw [same, State.entries_foldl along, recorded.entries, appended, entriesOf_append, add_comm]
  · rw [same, State.height_foldl, recorded.height]

theorem recorded [StakeCodec] {steps : List (Ledger H × BlockOrder H × Block H)}
    {last : Ledger H} (run : Run Ledger.step Ledger.new steps last) : last.Recorded :=
  run.invariant (fun _ _ => True) (fun _ _ => trivial) Recorded ⟨rfl, rfl⟩
    fun _ _ _ recorded _ taken => recorded.step taken

/-- What has been consumed is still live. -/
def Covered (l : Ledger H) : Prop :=
  ∀ c ∈ l.cells, ∀ id ∈ c.consumed, ∃ key ∈ l.state.liveCells, id ∈ key

theorem step_covered [StakeCodec] {l l' : Ledger H} {x : BlockOrder H × Block H}
    (covered : l.Covered) (taken : l.step x = some l') : l'.Covered := by
  obtain ⟨cells, _, appended, applied⟩ := step_ok taken
  obtain ⟨grows, spent⟩ := State.applyCells_ok applied
  intro c member id consumes
  rw [appended] at member
  rcases List.mem_append.mp member with old | new
  · obtain ⟨key, known, inside⟩ := covered c old id consumes
    exact ⟨key, grows key known, inside⟩
  · exact spent c new id consumes

theorem Covered.spent_iff (covered : l.Covered) : l.Spent ↔ ∀ c ∈ l.cells, c.inputs = ∅ := by
  constructor
  · -- nothing may have been consumed, since it would still be live
    intro spent c member
    rw [← consumed_empty, Finset.eq_empty_iff_forall_notMem]
    intro id consumes
    obtain ⟨key, known, inside⟩ := covered c member id consumes
    exact spent.2 c member id consumes key known inside
  · intro idle
    constructor
    · intro c member c' _ _
      rw [consumed_empty.mpr (idle c member)]
      exact Finset.disjoint_empty_left _
    · intro c member id consumes
      rw [consumed_empty.mpr (idle c member)] at consumes
      cases consumes

/-- In a sequence of blocks that are all applied, consumed ids are gone and no id is
consumed twice exactly as long as no cell has an input. -/
theorem spent_iff_inputless [StakeCodec] {steps : List (Ledger H × BlockOrder H × Block H)}
    {last : Ledger H} (run : Run Ledger.step Ledger.new steps last) :
    (∀ l ∈ states steps last, l.Spent) ↔ Meets (fun _ x => Inputless x) steps := by
  refine run.exact _ Covered Spent ⟨nofun, nofun, nofun⟩ fun l x l' covered spent taken => ?_
  have covered' := step_covered covered taken
  have idle := covered.spent_iff.mp spent
  obtain ⟨cells, listed, appended, _⟩ := step_ok taken
  refine ⟨covered', covered'.spent_iff.trans ?_⟩
  unfold Inputless
  simp only [listed, appended]
  constructor
  · exact fun none c member => none c (List.mem_append_right _ member)
  · intro inputless c member
    rcases List.mem_append.mp member with old | new
    · exact idle c old
    · exact inputless c new

end Ledger

section Sample

theorem mem_toOption {ε α : Type} {x : Except ε α} {a : α} : a ∈ x.toOption ↔ x = .ok a := by
  cases x <;> simp [Except.toOption]

theorem toOption_eq_none {ε α : Type} {x : Except ε α} :
    x.toOption = none ↔ ∃ e, x = .error e := by
  cases x <;> simp [Except.toOption]

/-- A stake state is the 32 bytes of an id; more bytes may follow. -/
instance : StakeCodec where
  nodeId data :=
    if 32 ≤ data.length then
      .ok ⟨BitVec.ofNat 256 ((data.take 32).foldl (fun n byte => n * 2 ^ 8 + byte.toNat) 0)⟩
    else .error "UnexpectedEof"

def idsKey (ids : CellIds Digest) : Nat :=
  encodeList ((sorted CellId.key CellId.key_injective ids).map CellId.key)

theorem idsKey_injective : Function.Injective idsKey :=
  setKey_injective CellId.key CellId.key_injective

def ascendingIds : BlockOrder Digest where
  dependencies := ascending idsKey idsKey_injective
  liveCells := ascending idsKey idsKey_injective

/-- Apply blocks with some cells each. -/
def runBlocks (blocks : List (List (Cell Digest))) :
    Option (List (Ledger Digest × BlockOrder Digest × Block Digest) × Ledger Digest) :=
  exec Ledger.step Ledger.new (blocks.map fun cells => (ascendingIds, ⟨none, 0, ⟨0⟩, cells⟩))

/-- Two coins are minted, and the first is spent in two blocks after the other; it is
live at the end. -/
theorem coin_spent_twice : ∃ steps last, Run Ledger.step Ledger.new steps last ∧
    pay [mint 100] 10 ∈ last.cells ∧ pay [mint 100] 20 ∈ last.cells ∧
    pay [mint 100] 10 ≠ pay [mint 100] 20 ∧
    coin (mint 100) ∈ (pay [mint 100] 10).consumed ∧
    coin (mint 100) ∈ (pay [mint 100] 20).consumed ∧
    ∃ key ∈ last.state.liveCells.keys, coin (mint 100) ∈ key := by
  have found : (runBlocks [[mint 100, mint 50], [pay [mint 100] 10], [pay [mint 100] 20]]).any
      (fun r => decide (pay [mint 100] 10 ∈ r.2.cells ∧ pay [mint 100] 20 ∈ r.2.cells ∧
        pay [mint 100] 10 ≠ pay [mint 100] 20 ∧
        coin (mint 100) ∈ (pay [mint 100] 10).consumed ∧
        coin (mint 100) ∈ (pay [mint 100] 20).consumed ∧
        ∃ key ∈ r.2.state.liveCells.keys, coin (mint 100) ∈ key)) = true := by
    decide +kernel
  obtain ⟨steps, last, run, facts⟩ := exec_any found
  exact ⟨steps, last, run, of_decide_eq_true facts⟩

theorem spent_iff_inputless_minted : ∃ steps last, Run Ledger.step Ledger.new steps last ∧
    mint 100 ∈ last.cells ∧ mint 50 ∈ last.cells ∧ ∀ l ∈ states steps last, l.Spent := by
  have found : (runBlocks [[mint 100], [mint 50]]).any
      (fun r => decide (mint 100 ∈ r.2.cells ∧ mint 50 ∈ r.2.cells ∧
        ∀ x ∈ r.1, Ledger.Inputless x.2)) = true := by
    decide +kernel
  obtain ⟨steps, last, run, facts⟩ := exec_any found
  obtain ⟨first, second, inputless⟩ := of_decide_eq_true facts
  exact ⟨steps, last, run, first, second, (Ledger.spent_iff_inputless run).mpr inputless⟩

end Sample
end Subzero.Alpha
