import Subzero.Alpha.Coinbase
import Subzero.Graph.Placement

/-! The order in which a block lists its cells. All the checks of a cell but one come out
the same in every order. The one that does not is in `remove_intersection`, whose result
is dropped: a key that is used up clashes with that of a cell without outputs, if that
cell has come before. -/
namespace Subzero.Alpha
open DependencyGraph
variable {H : Type} [DecidableEq H] [Blake3 H]
variable {c z : Cell H} {l : Ledger H} {cells ordered : List (Cell H)} {g g' : DependencyGraph H}
  {block : Block H}

/-- All the outputs of a cell that has some are consumed. -/
def UsesUp (pool : List (Cell H)) (c : Cell H) : Prop :=
  ∃ d ∈ pool, d.outputs ≠ [] ∧ d.produced ⊆ c.consumed

/-- The checks that do not depend on the order, for the cells of a block on top of those
of the ledger. The key of a cell of the block without outputs is left aside. -/
structure Acceptable [StakeCodec] (old cells : List (Cell H)) : Prop where
  distinct : (cells.map Cell.produced).Nodup
  accepts : ∀ c ∈ cells, Accepts (taken c.consumed (entriesOf (old ++ cells))) c
  fresh : ∀ c ∈ cells, ∀ d ∈ old, d.produced ≠ c.produced
  writable : ∀ c ∈ cells,
    Writable (entriesOf (old ++ cells.filter fun d => d.outputs ≠ [])) c.consumed

/-- A cell without outputs comes before a cell that uses up a key. -/
def Blocked (pool ordered : List (Cell H)) : Prop :=
  ∃ pre c post, ordered = pre ++ c :: post ∧ (∃ z ∈ pre, z.outputs = []) ∧ UsesUp pool c

theorem mem_entriesOf {e : Σ _ : CellIds H, Cell H} :
    e ∈ entriesOf cells ↔ ∃ c ∈ cells, ⟨c.produced, c⟩ = e := by
  simp [entriesOf]

section Order
variable (injective : Function.Injective (Cell.hash : Cell H → H))
  (ids : ∀ (h h' : H) i j, CellId.fromOutput h i = CellId.fromOutput h' j → h = h')
include injective ids

/-- Two keys that become equal are both used up, since they have no id in common. -/
theorem writable_iff {cells : List (Cell H)} {input : CellIds H} :
    Writable (entriesOf cells) input ↔ ∀ c ∈ cells, ∀ d ∈ cells,
      c.produced ⊆ input → d.produced ⊆ input → c.produced = d.produced := by
  constructor
  · intro writable c there d there' used used'
    refine writable _ (mem_entriesOf.mpr ⟨c, there, rfl⟩) _ (mem_entriesOf.mpr ⟨d, there', rfl⟩) ?_
    rw [Finset.sdiff_eq_empty_iff_subset.mpr used, Finset.sdiff_eq_empty_iff_subset.mpr used']
  · intro apart e member e' member' same
    obtain ⟨c, there, rfl⟩ := mem_entriesOf.mp member
    obtain ⟨d, there', rfl⟩ := mem_entriesOf.mp member'
    by_contra other
    have different : c ≠ d := fun eq => other (congrArg Cell.produced eq)
    have disjoint := Cell.produced_disjoint injective ids different
    have empty : c.produced \ input = ∅ := by
      rw [← Finset.disjoint_self_iff_empty]
      nth_rewrite 2 [same]
      exact disjoint.mono Finset.sdiff_subset Finset.sdiff_subset
    refine other (apart c there d there' ?_ ?_)
    · exact Finset.sdiff_eq_empty_iff_subset.mp empty
    · exact Finset.sdiff_eq_empty_iff_subset.mp (same ▸ empty)

variable {old cells ordered : List (Cell H)}

omit injective ids in
/-- A cell whose outputs are used up comes before the cell that does so. -/
theorem used_before (order : Ordered cells ordered) (all : ordered.Perm cells)
    {pre post : List (Cell H)} {c d : Cell H} (split : ordered = pre ++ c :: post)
    (known : d ∈ old ++ cells) (some_outputs : d.outputs ≠ []) (used : d.produced ⊆ c.consumed) :
    d ∈ pre ++ old := by
  rcases List.mem_append.mp known with before | inside
  · exact List.mem_append_right _ before
  · rw [← all.mem_iff, split] at inside
    rcases List.mem_append.mp inside with before | from_here
    · exact List.mem_append_left _ before
    · refine absurd ?_ (order.apart split from_here)
      rw [Finset.inter_eq_left.mpr used, Finset.nonempty_iff_ne_empty]
      exact fun empty => some_outputs (Cell.produced_eq_empty.mp empty)

/-- At the turn of a cell the keys stay distinct if those stay so that do not depend on
the order, and if it uses up no key after a cell without outputs. -/
theorem writable_turn_iff (order : Ordered cells ordered) (all : ordered.Perm cells)
    {pre post : List (Cell H)} (split : ordered = pre ++ c :: post) :
    Writable (entriesOf (pre ++ old)) c.consumed ↔
      Writable (entriesOf (old ++ cells.filter fun d => d.outputs ≠ [])) c.consumed ∧
        ¬ ((∃ z ∈ pre, z.outputs = []) ∧ UsesUp (old ++ cells) c) := by
  have inside : ∀ d ∈ pre, d ∈ cells := fun d listed => all.mem_iff.mp (by simp [split, listed])
  rw [writable_iff injective ids, writable_iff injective ids]
  constructor
  · intro writable
    constructor
    · have early : ∀ d ∈ old ++ cells.filter fun d => d.outputs ≠ [],
          d.produced ⊆ c.consumed → d ∈ pre ++ old := by
        intro d known used
        rcases List.mem_append.mp known with before | listed
        · exact List.mem_append_right _ before
        · obtain ⟨member, some_outputs⟩ := List.mem_filter.mp listed
          exact used_before order all split (List.mem_append_right _ member)
            (of_decide_eq_true some_outputs) used
      intro d known d' known' used used'
      exact writable d (early d known used) d' (early d' known' used') used used'
    · rintro ⟨⟨z, before, none⟩, d, known, some_outputs, used⟩
      have early := used_before order all split known some_outputs used
      have empty : z.produced = ∅ := Cell.produced_eq_empty.mpr none
      have same := writable z (List.mem_append_left _ before) d early (by simp [empty]) used
      exact some_outputs (Cell.produced_eq_empty.mp (same.symm.trans empty))
  · rintro ⟨writable, free⟩
    -- a key without ids before `c` is that of the ledger, or `c` uses up nothing
    have counted : ∀ d ∈ pre ++ old, ∀ d' ∈ pre ++ old, d'.produced ⊆ c.consumed →
        d.produced ≠ d'.produced → d ∈ old ++ cells.filter fun d => d.outputs ≠ [] := by
      intro d known d' known' used other
      rcases List.mem_append.mp known with before | before
      · by_cases none : d.outputs = []
        · have empty : d.produced = ∅ := Cell.produced_eq_empty.mpr none
          refine absurd ⟨⟨d, before, none⟩, d', ?_, ?_, used⟩ free
          · rcases List.mem_append.mp known' with new | old
            · exact List.mem_append_right _ (inside d' new)
            · exact List.mem_append_left _ old
          · exact fun none' => other (empty.trans (Cell.produced_eq_empty.mpr none').symm)
        · exact List.mem_append_right _
            (List.mem_filter.mpr ⟨inside d before, decide_eq_true none⟩)
      · exact List.mem_append_left _ before
    intro d known d' known' used used'
    by_contra other
    exact other (writable d (counted d known d' known' used' other)
      d' (counted d' known' d known used (Ne.symm other)) used used')

omit injective ids in
/-- No cell before it in the block has the ids of a cell. -/
theorem fresh_turn_iff (order : Ordered cells ordered) {pre post : List (Cell H)}
    (split : ordered = pre ++ c :: post) :
    (∀ e ∈ entriesOf (pre ++ old), e.1 ≠ c.produced) ↔ ∀ d ∈ old, d.produced ≠ c.produced := by
  have nodup := order.distinct
  rw [split, List.map_append, List.nodup_append] at nodup
  constructor
  · exact fun fresh d before =>
      fresh _ (mem_entriesOf.mpr ⟨d, List.mem_append_right _ before, rfl⟩)
  · intro fresh e there
    obtain ⟨d, known, rfl⟩ := mem_entriesOf.mp there
    rcases List.mem_append.mp known with before | before
    · exact nodup.2.2 _ (List.mem_map_of_mem before) _ (by simp)
    · exact fresh d before

/-- Nothing refuses the cells in an order exactly if the checks pass that do not depend on
it and no cell is blocked. -/
theorem along_admits_iff [StakeCodec] (order : Ordered cells ordered)
    (all : ordered.Perm cells) (distinct : (cells.map Cell.produced).Nodup) :
    Along Admits (entriesOf old) ordered ↔
      Acceptable old cells ∧ ¬ Blocked (old ++ cells) ordered := by
  have pool : entriesOf (old ++ cells) = entriesOf ordered + entriesOf old := by
    rw [entriesOf_append, entriesOf_perm all, add_comm]
  rw [along_iff]
  simp only [← entriesOf_append]
  constructor
  · intro admits
    have turn : ∀ c ∈ cells, ∃ pre post, ordered = pre ++ c :: post ∧
        Admits (entriesOf (pre ++ old)) c := by
      intro c member
      obtain ⟨pre, post, split⟩ := List.append_of_mem (all.mem_iff.mpr member)
      exact ⟨pre, post, split, admits pre c post split⟩
    refine ⟨⟨distinct, ?_, ?_, ?_⟩, ?_⟩
    · intro c member
      obtain ⟨pre, post, split, passed⟩ := turn c member
      rw [pool, taken_turn order split, ← entriesOf_append]
      exact passed.accepts
    · intro c member
      obtain ⟨pre, post, split, passed⟩ := turn c member
      exact (fresh_turn_iff order split).mp passed.fresh
    · intro c member
      obtain ⟨pre, post, split, passed⟩ := turn c member
      exact ((writable_turn_iff injective ids order all split).mp passed.writable).1
    · rintro ⟨pre, c, post, split, blocked⟩
      have passed := admits pre c post split
      exact ((writable_turn_iff injective ids order all split).mp passed.writable).2 blocked
  · rintro ⟨acceptable, free⟩ pre c post split
    have member : c ∈ cells := all.mem_iff.mp (by simp [split])
    constructor
    · have accepts := acceptable.accepts c member
      rwa [pool, taken_turn order split, ← entriesOf_append] at accepts
    · refine (writable_turn_iff injective ids order all split).mpr
        ⟨acceptable.writable c member, fun blocked => free ?_⟩
      exact ⟨pre, c, post, split, blocked⟩
    · exact (fresh_turn_iff order split).mpr (acceptable.fresh c member)

end Order

/-- Where a cell without outputs is in the block, the cells that use up a key feed it. -/
def Sheltered (old cells : List (Cell H)) : Prop :=
  ∀ z ∈ cells, z.outputs = [] → ∀ c ∈ cells, c ≠ z → UsesUp (old ++ cells) c → Feeds cells c z

theorem Sheltered.free {old cells ordered : List (Cell H)} (sheltered : Sheltered old cells)
    (order : Ordered cells ordered) : ¬ Blocked (old ++ cells) ordered := by
  rintro ⟨pre, c, post, split, ⟨z, before, none⟩, uses⟩
  have nodup : (pre ++ c :: post).Nodup := split ▸ order.distinct.of_map
  have apart := (List.nodup_append.mp nodup).2.2
  have other : c ≠ z := (apart z before c List.mem_cons_self).symm
  have feeds := sheltered z (order.subset z (by simp [split, before])) none c
    (order.subset c (by simp [split])) other uses
  have later := order.feeds_later feeds split
  exact apart z before z (List.mem_cons_of_mem _ later) rfl

/-- Nothing is blocked by a cell that comes last. -/
theorem free_of_last {pool cells ordered front : List (Cell H)} (order : Ordered cells ordered)
    (none : z.outputs = []) (last : ordered = front ++ [z]) : ¬ Blocked pool ordered := by
  rintro ⟨pre, c, post, split, ⟨z', before, none'⟩, _⟩
  have member : z' ∈ ordered := by simp [split, before]
  have same : z'.produced = z.produced := by
    rw [Cell.produced_eq_empty.mpr none, Cell.produced_eq_empty.mpr none']
  obtain rfl := List.inj_on_of_nodup_map order.distinct member (by simp [last]) same
  have nodup : (pre ++ c :: post).Nodup := split ▸ order.distinct.of_map
  have ends : (c :: post).getLast? = some z' := by
    have both : (pre ++ c :: post).getLast? = (front ++ [z']).getLast? := by rw [← split, last]
    simpa using both
  exact (List.nodup_append.mp nodup).2.2 z' before z' (List.mem_of_getLast? ends) rfl

section Placed
variable {order : Listing (CellIds H)} {block : Block H} {cells ordered : List (Cell H)}
  {z : Cell H}

omit [Blake3 H] in
theorem hasInboundEdges_empty (dh : HashMap (CellIds H) (CellIds H)) :
    hasInboundEdges dh ∅ = false := by
  simp [hasInboundEdges]

/-- The key without ids becomes the last root when it is inserted. -/
theorem insert_last (none : z.outputs = []) (inserted : g.insert z = .ok g') :
    g'.roots = g.roots.filter (fun root => ¬ (z.consumed ∩ root).Nonempty) ++ [z.produced] := by
  unfold DependencyGraph.insert at inserted
  rw [Cell.produced_eq_empty.mpr none] at inserted ⊢
  split at inserted
  · cases inserted
  · cases inserted
    simp [hasInboundEdges_empty]

/-- No cell consumes from the key without ids, so it stays the first root. -/
theorem insert_first {rest : List (CellIds H)} (first : g.roots = ∅ :: rest)
    (inserted : g.insert c = .ok g') : ∃ rest', g'.roots = ∅ :: rest' := by
  unfold DependencyGraph.insert at inserted
  split at inserted
  · cases inserted
  · cases inserted
    simp only [first, Finset.inter_empty, Finset.not_nonempty_empty, not_false_eq_true, decide_true,
      List.filter_cons_of_pos]
    split
    · exact ⟨_, rfl⟩
    · exact ⟨_, rfl⟩

theorem insertAll_first {rest : List (CellIds H)} (first : g.roots = ∅ :: rest)
    (inserted : State.insertAll cells g = .ok g') : ∃ rest', g'.roots = ∅ :: rest' := by
  induction cells generalizing g rest with
  | nil =>
    cases inserted
    exact ⟨rest, first⟩
  | cons c cells ih =>
    obtain ⟨g₁, one, later⟩ := State.insertAll_cons inserted
    obtain ⟨rest₁, still⟩ := insert_first first one
    exact ih still later

theorem insertAll_last (inserted : State.insertAll (cells ++ [z]) g = .ok g') :
    ∃ g₁ : DependencyGraph H, g₁.insert z = .ok g' := by
  induction cells generalizing g with
  | nil =>
    obtain ⟨g₁, one, done⟩ := State.insertAll_cons inserted
    cases done
    exact ⟨g, one⟩
  | cons c cells ih =>
    obtain ⟨g₁, _, later⟩ := State.insertAll_cons inserted
    exact ih later

/-- A cell without outputs that is listed first has only the cells before it that feed it. -/
theorem orderedCells_first (none : z.outputs = []) (first : block.cells = z :: cells)
    (listed : State.orderedCells order block = .ok ordered) :
    ∃ front back, ordered = front ++ z :: back ∧ ∀ c ∈ front, Feeds block.cells c z := by
  obtain ⟨g, inserted, built, found⟩ := State.orderedCells_graph listed
  rw [first] at inserted
  obtain ⟨g₁, one, later⟩ := State.insertAll_cons inserted
  have alone : g₁.roots = ∅ :: [] := by
    rw [insert_last none one, Cell.produced_eq_empty.mpr none]
    rfl
  obtain ⟨rest, root⟩ := insertAll_first alone later
  rw [← Cell.produced_eq_empty.mpr none] at root
  obtain ⟨front, back, again, feeds⟩ := built.first_root order (by simp [first]) root
  cases found.symm.trans again
  exact ⟨front, back, rfl, feeds⟩

/-- One that is listed last comes last. -/
theorem orderedCells_last (none : z.outputs = []) (last : block.cells = cells ++ [z])
    (listed : State.orderedCells order block = .ok ordered) : ∃ front, ordered = front ++ [z] := by
  obtain ⟨g, inserted, built, found⟩ := State.orderedCells_graph listed
  rw [last] at inserted
  obtain ⟨g₁, one⟩ := insertAll_last inserted
  obtain ⟨front, again⟩ := built.last_root order (by simp [last]) (insert_last none one)
  cases found.symm.trans again
  exact ⟨front, rfl⟩

/-- Cells that all go into the graph, in any order, and that do not depend on themselves are
all put in order: a cell that produces an id comes before the cells that consume it. -/
theorem topologicalCells_dependencies {inserted : List (Cell H)} {g : DependencyGraph H}
    (arrived : inserted.Perm cells) (built : State.insertAll inserted .new = .ok g)
    (acyclic : ∀ c, ¬ Feeds cells c c) (order : Listing (CellIds H)) :
    ∃ ordered, g.topologicalCells order cells = .ok ordered ∧ ordered.Perm cells ∧
      ∀ c ∈ cells, ∀ d ∈ cells, ∀ id ∈ c.produced, id ∈ d.consumed →
        ∃ pre mid post, ordered = pre ++ c :: mid ++ d :: post ∧ c ∉ mid ++ d :: post ∧
          d ∉ pre ++ c :: mid := by
  have graph : Built cells g := (State.insertAll_built .new built).perm arrived
  obtain ⟨ordered, found, sorted⟩ := graph.topologicalCells order
  have all := sorted.complete acyclic
  have nodup : ordered.Nodup := sorted.distinct.of_map
  refine ⟨ordered, found, ?_, fun c producer d consumer id produced consumed => ?_⟩
  · rw [List.perm_ext_iff_of_nodup nodup graph.distinct.of_map]
    exact fun c => ⟨sorted.subset c, all c⟩
  · obtain ⟨pre, post, split⟩ := List.append_of_mem (all c producer)
    have later := sorted.later pre c post split d consumer
      ⟨id, Finset.mem_inter.mpr ⟨produced, consumed⟩⟩
    obtain ⟨mid, post', rfl⟩ := List.append_of_mem later
    rw [← List.cons_append, ← List.append_assoc] at split
    rw [split] at nodup
    refine ⟨pre, mid, post', split, fun again => ?_, fun before => ?_⟩
    · rw [List.append_assoc] at nodup
      exact (List.nodup_cons.mp (List.nodup_append.mp nodup).2.1).1 again
    · exact List.disjoint_of_nodup_append nodup before List.mem_cons_self

/-- A payment that is inserted before the cells it depends on comes last. -/
theorem topologicalCells_dependencies_chain :
    ∃ g, State.insertAll [pay [pay [mint 5] 3] 2, mint 5, pay [mint 5] 3] .new = .ok g ∧
      ∀ order, ∃ ordered,
        g.topologicalCells order [mint 5, pay [mint 5] 3, pay [pay [mint 5] 3] 2] = .ok ordered ∧
        ordered.Perm [mint 5, pay [mint 5] 3, pay [pay [mint 5] 3] 2] := by
  obtain ⟨g, built⟩ : ∃ g, State.insertAll
      [pay [pay [mint 5] 3] 2, mint 5, pay [mint 5] 3] .new = .ok g := by
    refine State.insertAll_ok .new ?_
    decide +kernel
  have arrived : [pay [pay [mint 5] 3] 2, mint 5, pay [mint 5] 3].Perm
      [mint 5, pay [mint 5] 3, pay [pay [mint 5] 3] 2] := by
    decide +kernel
  have acyclic : ∀ c, ¬ Feeds [mint 5, pay [mint 5] 3, pay [pay [mint 5] 3] 2] c c := by
    refine feeds_irrefl (fun c => c.hash.value) ?_
    decide +kernel
  refine ⟨g, built, fun order => ?_⟩
  obtain ⟨ordered, found, same, _⟩ := topologicalCells_dependencies arrived built acyclic order
  exact ⟨ordered, found, same⟩

end Placed

section Perm
variable {old cells cells' : List (Cell H)} (same : cells.Perm cells')
include same

theorem Acceptable.perm [StakeCodec] (acceptable : Acceptable old cells) :
    Acceptable old cells' where
  distinct := (same.map _).nodup_iff.mp acceptable.distinct
  accepts c member := by
    rw [← entriesOf_perm (same.append_left old)]
    exact acceptable.accepts c (same.mem_iff.mpr member)
  fresh c member := acceptable.fresh c (same.mem_iff.mpr member)
  writable c member := by
    rw [← entriesOf_perm ((same.filter _).append_left old)]
    exact acceptable.writable c (same.mem_iff.mpr member)

omit [DecidableEq H] [Blake3 H] in
theorem mem_pool (c : Cell H) : c ∈ old ++ cells ↔ c ∈ old ++ cells' :=
  (same.append_left old).mem_iff

theorem UsesUp.perm (uses : UsesUp (old ++ cells) c) : UsesUp (old ++ cells') c := by
  obtain ⟨d, known, used⟩ := uses
  exact ⟨d, (mem_pool same d).mp known, used⟩

theorem Feeds.perm (feeds : Feeds cells c z) : Feeds cells' c z := by
  refine Relation.TransGen.mono ?_ c z feeds
  exact fun c d edge => ⟨same.mem_iff.mp edge.1, same.mem_iff.mp edge.2.1, edge.2.2⟩

theorem Sheltered.perm (sheltered : Sheltered old cells) : Sheltered old cells' := by
  intro z last none c member other uses
  exact Feeds.perm same (sheltered z (same.mem_iff.mpr last) none c (same.mem_iff.mpr member) other
    (uses.perm same.symm))

end Perm

/-- Both fail, or both succeed with the same state up to the order of the validators. -/
def Agree : Except (AlphaError H) (State H) → Except (AlphaError H) (State H) → Prop
  | .ok s, .ok s' => s.height = s'.height ∧
      s.totalSpendingCapacity = s'.totalSpendingCapacity ∧
      s.totalStakingCapacity = s'.totalStakingCapacity ∧
      s.liveCells = s'.liveCells ∧ s.validators.Perm s'.validators
  | .error _, .error _ => True
  | _, _ => False

section States
variable [StakeCodec] {cells : List (Cell H)} {s : State H}

theorem spending_foldl {pool : Entries H} (along : Along Admits s.liveCells.entries cells)
    (fixed : Along (fun live c => spent live c = spent pool c) s.liveCells.entries cells) :
    (cells.foldl State.after s).totalSpendingCapacity = s.totalSpendingCapacity +
      (cells.map fun c => sumOf .transfer c.outputs + sumOf .coinbase c.outputs -
        spent pool c).sum := by
  induction cells generalizing s with
  | nil => exact (add_zero _).symm
  | cons c cells ih =>
    obtain ⟨admits, later⟩ := along
    obtain ⟨here, fixed⟩ := fixed
    rw [← State.entries_after admits] at later fixed
    rw [List.foldl_cons, ih later fixed, List.map_cons, List.sum_cons, ← add_assoc, State.after,
      here, sub_add_eq_add_sub, add_sub_assoc]

theorem staking_foldl : (cells.foldl State.after s).totalStakingCapacity =
    s.totalStakingCapacity + (cells.map fun c => sumOf .stake c.outputs).sum := by
  induction cells generalizing s with
  | nil => exact (add_zero _).symm
  | cons c cells ih => rw [List.foldl_cons, ih, List.map_cons, List.sum_cons, ← add_assoc]; rfl

theorem validators_foldl : (cells.foldl State.after s).validators =
    s.validators ++ cells.flatMap fun c => c.outputs.filterMap validatorOf := by
  induction cells generalizing s with
  | nil => exact (List.append_nil _).symm
  | cons c cells ih => rw [List.foldl_cons, ih, List.flatMap_cons, ← List.append_assoc]; rfl

/-- Two orders of the same cells lead to the same state. -/
theorem agree_foldl {cells' ordered ordered' : List (Cell H)} (one : Ordered cells ordered)
    (two : Ordered cells' ordered') (same : ordered.Perm ordered')
    (along : Along Admits s.liveCells.entries ordered)
    (along' : Along Admits s.liveCells.entries ordered') :
    Agree (.ok (ordered.foldl State.after s)) (.ok (ordered'.foldl State.after s)) := by
  have pool : entriesOf ordered + s.liveCells.entries =
      entriesOf ordered' + s.liveCells.entries := by rw [entriesOf_perm same]
  have fixed : ∀ {cells ordered : List (Cell H)}, Ordered cells ordered →
      Along (fun live c => spent live c = spent (entriesOf ordered + s.liveCells.entries) c)
        s.liveCells.entries ordered := by
    intro cells ordered order
    rw [along_iff]
    intro pre c post split
    rw [spent, spent, taken_turn order split]
  refine ⟨?_, ?_, ?_, ?_, ?_⟩
  · rw [State.height_foldl, State.height_foldl]
  · rw [spending_foldl along (fixed one), spending_foldl along' (fixed two), pool]
    rw [(same.map _).sum_eq]
  · rw [staking_foldl, staking_foldl, (same.map _).sum_eq]
  · apply Finmap.ext
    rw [State.entries_foldl along, State.entries_foldl along', pool]
  · rw [validators_foldl, validators_foldl]
    exact (same.flatMap_right _).append_left _

end States

section Listing
variable [StakeCodec] (injective : Function.Injective (Cell.hash : Cell H → H))
  (ids : ∀ (h h' : H) i j, CellId.fromOutput h i = CellId.fromOutput h' j → h = h')
  (ranked : Ranked H)
include injective ids ranked

/-- A block is applied to a ledger if the checks pass that do not depend on the order and
the order that it is put in is not blocked. -/
theorem Ledger.Recorded.apply_ok_iff (recorded : l.Recorded) {order : BlockOrder H}
    (listed : State.orderedCells order.dependencies block = .ok ordered) {s : State H} :
    l.state.apply order block = .ok s ↔ (Acceptable l.cells block.cells ∧
      ¬ Blocked (l.cells ++ block.cells) ordered) ∧ s = ordered.foldl State.after l.state := by
  obtain ⟨distinct, sorted⟩ := State.orderedCells_ok listed
  have all := sorted.ranked ranked ids distinct
  have timely : ∀ c ∈ ordered, Timely l.state.height c.outputs := fun _ _ _ _ _ => recorded.height
  rw [State.apply, listed]
  simp only [State.applyCells_iff, recorded.entries, and_iff_right timely]
  rw [along_admits_iff injective ids sorted all distinct]

theorem Ledger.Recorded.applies (recorded : l.Recorded) (order : BlockOrder H) (block : Block H)
    (acceptable : Acceptable l.cells block.cells) (sheltered : Sheltered l.cells block.cells) :
    ∃ ordered, Ordered block.cells ordered ∧
      Along Admits l.state.liveCells.entries ordered ∧
      l.state.apply order block = .ok (ordered.foldl State.after l.state) := by
  obtain ⟨ordered, listed⟩ := State.orderedCells_distinct order.dependencies acceptable.distinct
  obtain ⟨distinct, sorted⟩ := State.orderedCells_ok listed
  have free := sheltered.free sorted
  refine ⟨ordered, sorted, ?_, ?_⟩
  · rw [recorded.entries]
    exact (along_admits_iff injective ids sorted (sorted.ranked ranked ids distinct) distinct).mpr
      ⟨acceptable, free⟩
  · exact (recorded.apply_ok_iff injective ids ranked listed).mpr ⟨⟨acceptable, free⟩, rfl⟩

/-- A block that is applied passes the checks that do not depend on the order. -/
theorem Ledger.Recorded.acceptable (recorded : l.Recorded) {order : BlockOrder H} {s : State H}
    (applied : l.state.apply order block = .ok s) :
    Acceptable l.cells block.cells ∧ ∃ ordered,
      State.orderedCells order.dependencies block = .ok ordered ∧
      ¬ Blocked (l.cells ++ block.cells) ordered := by
  cases listed : State.orderedCells order.dependencies block with
  | error e =>
    rw [State.apply, listed] at applied
    cases applied
  | ok ordered =>
    obtain ⟨⟨acceptable, free⟩, _⟩ := (recorded.apply_ok_iff injective ids ranked listed).mp applied
    exact ⟨acceptable, ordered, rfl, free⟩

/-- Listed first, a cell without outputs blocks a cell that uses up a key and does not
feed it. -/
theorem Ledger.Recorded.first_blocks (recorded : l.Recorded) (order : BlockOrder H)
    (block : Block H) (first : block.cells = z :: cells) (none : z.outputs = [])
    (member : c ∈ block.cells) (other : c ≠ z) (uses : UsesUp (l.cells ++ block.cells) c)
    (apart : ¬ Feeds block.cells c z) : ∃ e, l.state.apply order block = .error e := by
  cases applied : l.state.apply order block with
  | error e => exact ⟨e, rfl⟩
  | ok s =>
    obtain ⟨_, ordered, listed, free⟩ := recorded.acceptable injective ids ranked applied
    obtain ⟨distinct, sorted⟩ := State.orderedCells_ok listed
    obtain ⟨front, back, split, feeds⟩ := orderedCells_first none first listed
    have inside : c ∈ front ++ z :: back :=
      split ▸ (sorted.ranked ranked ids distinct).mem_iff.mpr member
    have later : c ∈ back := by
      rcases List.mem_append.mp inside with before | from_here
      · exact absurd (feeds c before) apart
      · exact (List.mem_cons.mp from_here).resolve_left other
    obtain ⟨between, rest, rfl⟩ := List.append_of_mem later
    refine absurd ⟨front ++ z :: between, c, rest, by simp [split], ⟨z, by simp, none⟩, uses⟩ free

/-- Listed last, it blocks nothing. -/
theorem Ledger.Recorded.last_applies (recorded : l.Recorded) (order : BlockOrder H)
    (block : Block H) (last : block.cells = cells ++ [z]) (none : z.outputs = [])
    (acceptable : Acceptable l.cells block.cells) : ∃ s, l.state.apply order block = .ok s := by
  obtain ⟨ordered, listed⟩ := State.orderedCells_distinct order.dependencies acceptable.distinct
  obtain ⟨front, split⟩ := orderedCells_last none last listed
  have free : ¬ Blocked (l.cells ++ block.cells) ordered :=
    free_of_last (State.orderedCells_ok listed).2 none split
  exact ⟨_, (recorded.apply_ok_iff injective ids ranked listed).mpr ⟨⟨acceptable, free⟩, rfl⟩⟩

/-- Blocks that agree with those that list a cell without outputs first and last are
sheltered. -/
theorem Ledger.Recorded.sheltered (recorded : l.Recorded) (order : BlockOrder H)
    (acceptable : Acceptable l.cells block.cells)
    (agree : ∀ cells', cells'.Perm block.cells → Agree (l.state.apply order block) (l.state.apply
      order { block with cells := cells' })) : Sheltered l.cells block.cells := by
  intro z last none c member other uses
  by_contra apart
  have front : (z :: block.cells.erase z).Perm block.cells := (List.perm_cons_erase last).symm
  have back : (block.cells.erase z ++ [z]).Perm block.cells :=
    (List.perm_append_singleton z _).trans front
  obtain ⟨e, refused⟩ := recorded.first_blocks injective ids ranked order
    { block with cells := z :: block.cells.erase z } rfl none (front.mem_iff.mpr member) other
    (uses.perm front.symm) (fun feeds => apart (Feeds.perm front feeds))
  obtain ⟨s, applied⟩ := recorded.last_applies injective ids ranked order
    { block with cells := block.cells.erase z ++ [z] } rfl none (acceptable.perm back.symm)
  have one := agree _ front
  have two := agree _ back
  rw [refused] at one
  rw [applied] at two
  -- the block itself can agree with only one of the two
  cases result : l.state.apply order block with
  | error e' =>
    rw [result] at two
    exact two
  | ok s' =>
    rw [result] at one
    exact one

/-- Blocks that are sheltered, or refused by another rule, agree however they are listed. -/
theorem Ledger.Recorded.agrees (recorded : l.Recorded)
    (sheltered : Acceptable l.cells block.cells → Sheltered l.cells block.cells)
    {cells' : List (Cell H)} (same : cells'.Perm block.cells) (order order' : BlockOrder H) :
    Agree (l.state.apply order block) (l.state.apply order' { block with cells := cells' }) := by
  by_cases acceptable : Acceptable l.cells block.cells
  · obtain ⟨ordered, one, along, applied⟩ := recorded.applies injective ids ranked order block
      acceptable (sheltered acceptable)
    obtain ⟨ordered', two, along', applied'⟩ := recorded.applies injective ids ranked order'
      { block with cells := cells' } (acceptable.perm same.symm)
      ((sheltered acceptable).perm same.symm)
    rw [applied, applied']
    exact agree_foldl one two (one.perm two same.symm) along along'
  · cases applied : l.state.apply order block with
    | ok s => exact absurd (recorded.acceptable injective ids ranked applied).1 acceptable
    | error e =>
      cases applied' : l.state.apply order' { block with cells := cells' } with
      | ok s =>
        have passes := (recorded.acceptable injective ids ranked applied').1
        exact absurd (passes.perm same) acceptable
      | error e' => exact trivial

/-- However the cells of a block are listed, it has the same effect on a ledger, exactly
if every cell that uses up a key feeds the cell without outputs, or another rule refuses
the block. -/
theorem listing_agrees_iff {steps : List (Ledger H × BlockOrder H × Block H)} {l : Ledger H}
    (run : Run Ledger.step Ledger.new steps l) (block : Block H) :
    (∀ cells', cells'.Perm block.cells → ∀ order order',
      Agree (l.state.apply order block) (l.state.apply order' { block with cells := cells' })) ↔
    (Acceptable l.cells block.cells → Sheltered l.cells block.cells) := by
  have recorded := Ledger.recorded run
  let list : Listing (CellIds H) :=
    ⟨Finset.toList, Finset.nodup_toList, fun _ _ => Finset.mem_toList⟩
  constructor
  · intro agree acceptable
    exact recorded.sheltered injective ids ranked ⟨list, list⟩ acceptable
      fun cells' same => agree cells' same _ _
  · intro sheltered cells' same order order'
    exact recorded.agrees injective ids ranked sheltered same order order'

end Listing

section Sample

/-- A cell that spends the first outputs of some cells and produces nothing. -/
def burn (spent : List (Cell Digest)) : Cell Digest := { pay spent 0 with outputs := [] }

/-- Two coins are spent. The block is applied if the one that is burnt is listed last, and
refused if it is listed first. -/
theorem listing_disagrees : ∃ steps l, Run Ledger.step Ledger.new steps l ∧
    (∃ s, l.state.apply ascendingIds (secondBlock [pay [mint 50] 40, burn [mint 100]]) = .ok s) ∧
    ∃ e, l.state.apply ascendingIds (secondBlock [burn [mint 100], pay [mint 50] 40]) =
      .error e := by
  have found : (runBlocks [[mint 100, mint 50]]).any (fun r => decide (
      (r.2.state.apply ascendingIds
        (secondBlock [pay [mint 50] 40, burn [mint 100]])).toOption.isSome ∧
      (r.2.state.apply ascendingIds
        (secondBlock [burn [mint 100], pay [mint 50] 40])).toOption = none)) = true := by
    decide +kernel
  obtain ⟨steps, l, run, facts⟩ := exec_any found
  obtain ⟨applied, refused⟩ := of_decide_eq_true facts
  obtain ⟨s, applied⟩ := Option.isSome_iff_exists.mp applied
  exact ⟨steps, l, run, ⟨s, mem_toOption.mp applied⟩, toOption_eq_none.mp refused⟩

/-- Two payments can be listed either way. -/
theorem listing_agrees_iff_payments : ∃ steps l, Run Ledger.step Ledger.new steps l ∧
    (∃ s, l.state.apply ascendingIds
      (secondBlock [pay [mint 100] 90, pay [mint 50] 40]) = .ok s) ∧
    ∀ cells', cells'.Perm [pay [mint 100] 90, pay [mint 50] 40] → ∀ order order',
      Agree (l.state.apply order (secondBlock [pay [mint 100] 90, pay [mint 50] 40]))
        (l.state.apply order' (secondBlock cells')) := by
  have found : (runBlocks [[mint 100, mint 50]]).any (fun r =>
      (r.2.state.apply ascendingIds
        (secondBlock [pay [mint 100] 90, pay [mint 50] 40])).toOption.isSome) = true := by
    decide +kernel
  obtain ⟨steps, l, run, applied⟩ := exec_any found
  obtain ⟨s, applied⟩ := Option.isSome_iff_exists.mp applied
  refine ⟨steps, l, run, ⟨s, mem_toOption.mp applied⟩, ?_⟩
  refine (listing_agrees_iff hash_injective fromOutput_hash ranked_digest run
    (secondBlock [pay [mint 100] 90, pay [mint 50] 40])).mpr fun _ z member none => ?_
  have outputs : ∀ z ∈ (secondBlock [pay [mint 100] 90, pay [mint 50] 40]).cells,
      z.outputs ≠ [] := by decide
  exact absurd none (outputs z member)

end Sample
end Subzero.Alpha
