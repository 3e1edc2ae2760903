import Mathlib.Logic.Relation
import Subzero.Graph.DependencyGraph
import Subzero.Lib.Kahn

/-! The order that the dependency graph finds. A vertex is listed once all the vertices
that consume its ids are, so the list holds the same vertices in whatever order the
maps are iterated, and a vertex stands before those that consume its ids. -/
namespace Subzero.DependencyGraph
variable {H : Type} [DecidableEq H]
variable {p : CellIds H} {cell : Cell H}

/-- The vertex `v` consumes an id that `p` produces. -/
def Consumes (dh : HashMap (CellIds H) (CellIds H)) (v p : CellIds H) : Prop :=
  ∃ consumed, dh.lookup v = some consumed ∧ (p ∩ consumed).Nonempty

theorem hasInboundEdges_iff {dh : HashMap (CellIds H) (CellIds H)} :
    hasInboundEdges dh p = true ↔ ∃ v, Consumes dh v p := by
  unfold hasInboundEdges Consumes
  rw [decide_eq_true_eq]
  constructor
  · rintro ⟨v, _, consumed, known, meets⟩
    exact ⟨v, consumed, known, meets⟩
  · rintro ⟨v, consumed, known, meets⟩
    exact ⟨v, HashMap.mem_keys_of_lookup known, consumed, known, meets⟩

/-- A list of the vertices whose consumers are all listed, each before its consumers. -/
structure Sorts (dh : HashMap (CellIds H) (CellIds H)) (sorted : List (CellIds H)) : Prop where
  nodup : sorted.Nodup
  closed : ∀ p, p ∈ sorted ↔ p ∈ dh ∧ ∀ v, Consumes dh v p → v ∈ sorted
  later : ∀ pre p post, sorted = pre ++ p :: post → ∀ v, Consumes dh v p → v ∈ post

/-- The graph without the edges of the listed vertices. -/
def Stripped (dh : HashMap (CellIds H) (CellIds H)) (sorted : List (CellIds H))
    (graph : HashMap (CellIds H) (CellIds H)) : Prop :=
  ∀ p, graph.lookup p = (dh.lookup p).map fun consumed => if p ∈ sorted then ∅ else consumed

/-- The loop has listed `sorted` and removed its edges; `roots` are the other vertices
without inbound edges. -/
structure Peeling (dh : HashMap (CellIds H) (CellIds H)) (roots : List (CellIds H))
    (graph : HashMap (CellIds H) (CellIds H)) (sorted : List (CellIds H)) : Prop where
  stripped : Stripped dh sorted graph
  nodup : (roots ++ sorted).Nodup
  ready : ∀ p, p ∈ roots ++ sorted ↔ p ∈ dh ∧ ∀ v, Consumes dh v p → v ∈ sorted
  later : ∀ pre p post, sorted = pre ++ p :: post → ∀ v, Consumes dh v p → v ∈ post

section Peeling
variable {dh graph : HashMap (CellIds H) (CellIds H)} {roots sorted : List (CellIds H)}

theorem Stripped.mem (stripped : Stripped dh sorted graph) : p ∈ graph ↔ p ∈ dh := by
  rw [← Finmap.lookup_isSome, stripped, Option.isSome_map, Finmap.lookup_isSome]

/-- The edges that are left come from vertices that are not listed. -/
theorem Stripped.consumes_iff (stripped : Stripped dh sorted graph) {v p : CellIds H} :
    Consumes graph v p ↔ Consumes dh v p ∧ v ∉ sorted := by
  unfold Consumes
  rw [stripped]
  constructor
  · rintro ⟨left, known, meets⟩
    obtain ⟨consumed, there, rfl⟩ := Option.map_eq_some_iff.mp known
    by_cases listed : v ∈ sorted
    · simp [listed] at meets
    · rw [if_neg listed] at meets
      exact ⟨⟨consumed, there, meets⟩, listed⟩
  · rintro ⟨⟨consumed, there, meets⟩, listed⟩
    exact ⟨consumed, by rw [there, Option.map_some, if_neg listed], meets⟩

theorem Stripped.pop (stripped : Stripped dh sorted graph) {root : CellIds H}
    (vertex : root ∈ dh) : Stripped dh (root :: sorted) (graph.insert root ∅) := by
  intro p
  rw [HashMap.lookup_insert_ite, stripped]
  by_cases same : p = root
  · subst same
    obtain ⟨consumed, known⟩ := Finmap.mem_iff.mp vertex
    simp [known]
  · simp [same]

/-- What is freed by the edges of a vertex: the vertices that it consumes from and whose
other consumers are listed. -/
theorem Stripped.mem_freed (order : Listing (CellIds H)) {root removed p : CellIds H}
    (stripped : Stripped dh (root :: sorted) graph) (known : dh.lookup root = some removed) :
    p ∈ freed order graph removed ↔
      p ∈ dh ∧ Consumes dh root p ∧ ∀ v, Consumes dh v p → v ∈ root :: sorted := by
  have vertex : p ∈ order.list graph.keys ↔ p ∈ dh := by
    rw [order.mem, Finmap.mem_keys, stripped.mem]
  have meets : (p ∩ removed).Nonempty ↔ Consumes dh root p := by
    simp [Consumes, known]
  have inbound : hasInboundEdges graph p = false ↔
      ∀ v, Consumes dh v p → v ∈ root :: sorted := by
    rw [← Bool.not_eq_true, hasInboundEdges_iff]
    simp only [stripped.consumes_iff]
    push Not
    rfl
  simp only [freed, List.mem_filter, vertex, Bool.decide_and, Bool.and_eq_true, decide_eq_true_eq,
    meets, Bool.not_eq_true, inbound]

/-- One round of the loop. -/
theorem Peeling.pop (order : Listing (CellIds H)) {root removed : CellIds H}
    (inv : Peeling dh (root :: roots) graph sorted) (known : dh.lookup root = some removed) :
    Peeling dh ((freed order (graph.insert root ∅) removed).reverse ++ roots)
      (graph.insert root ∅) (root :: sorted) := by
  have vertex : root ∈ dh := Finmap.mem_of_lookup_eq_some known
  have stripped := inv.stripped.pop vertex
  have mem_freed := fun p => stripped.mem_freed order (p := p) known
  have own := (inv.ready root).mp (by simp)
  have fresh : root ∉ sorted := by
    intro listed
    exact List.disjoint_of_nodup_append inv.nodup List.mem_cons_self listed
  have moved : (roots ++ root :: sorted).Perm (root :: roots ++ sorted) := List.perm_middle
  -- a freed vertex is new: its consumer `root` was not listed before
  have unseen : ∀ p ∈ freed order (graph.insert root ∅) removed, p ∉ root :: roots ++ sorted := by
    intro p free seen
    exact fresh (((inv.ready p).mp seen).2 root ((mem_freed p).mp free).2.1)
  refine ⟨stripped, ?_, ?_, ?_⟩
  · rw [List.append_assoc, List.nodup_append]
    refine ⟨List.nodup_reverse.mpr ((order.nodup _).filter _), moved.nodup_iff.mpr inv.nodup, ?_⟩
    intro p free q seen same
    subst same
    exact unseen p (List.mem_reverse.mp free) (moved.mem_iff.mp seen)
  · intro p
    rw [List.append_assoc, List.mem_append, List.mem_reverse, moved.mem_iff, mem_freed, inv.ready]
    constructor
    · rintro (⟨there, _, all⟩ | ⟨there, all⟩)
      · exact ⟨there, all⟩
      · exact ⟨there, fun v consumes => List.mem_cons_of_mem root (all v consumes)⟩
    · rintro ⟨there, all⟩
      by_cases edge : Consumes dh root p
      · exact .inl ⟨there, edge, all⟩
      · refine .inr ⟨there, fun v consumes => ?_⟩
        rcases List.mem_cons.mp (all v consumes) with rfl | listed
        · exact absurd consumes edge
        · exact listed
  · intro pre p post split v consumes
    cases pre with
    | nil =>
      obtain ⟨rfl, rfl⟩ := List.cons.inj split
      exact own.2 v consumes
    | cons q pre => exact inv.later pre p post (List.cons.inj split).2 v consumes

/-- The loop ends with a sorted list, and with what every round keeps. -/
theorem Peeling.finish (order : Listing (CellIds H)) {fuel : Nat}
    (enough : roots.length + (standing graph).card * graph.keys.card ≤ fuel)
    (inv : Peeling dh roots graph sorted) (I : List (CellIds H) → List (CellIds H) → Prop)
    (keeps : ∀ root roots graph sorted removed, Peeling dh (root :: roots) graph sorted →
      dh.lookup root = some removed → I (root :: roots) sorted →
      I ((freed order (graph.insert root ∅) removed).reverse ++ roots) (root :: sorted))
    (init : I roots sorted) :
    ∃ ids, peel order fuel roots graph sorted = .ok ids ∧ Sorts dh ids ∧ I [] ids := by
  induction fuel generalizing roots graph sorted with
  | zero =>
    obtain rfl : roots = [] := List.eq_nil_of_length_eq_zero (by omega)
    exact ⟨sorted, rfl, ⟨inv.nodup, inv.ready, inv.later⟩, init⟩
  | succ fuel ih =>
    cases roots with
    | nil => exact ⟨sorted, rfl, ⟨inv.nodup, inv.ready, inv.later⟩, init⟩
    | cons root roots =>
      have vertex : root ∈ dh := ((inv.ready root).mp (by simp)).1
      obtain ⟨removed, known⟩ := Finmap.mem_iff.mp vertex
      have fresh : root ∉ sorted := fun listed =>
        List.disjoint_of_nodup_append inv.nodup List.mem_cons_self listed
      have found : graph.lookup root = some removed := by
        rw [inv.stripped, known, Option.map_some, if_neg fresh]
      rw [peel, found]
      exact ih (round_fuel order found enough) (inv.pop order known)
        (keeps root roots graph sorted removed inv known init)

end Peeling

/-- The graph of a list of cells. -/
structure Built [Blake3 H] (cells : List (Cell H)) (g : DependencyGraph H) : Prop where
  distinct : (cells.map Cell.produced).Nodup
  edges : ∀ p consumed, g.dh.lookup p = some consumed ↔
    ∃ c ∈ cells, c.produced = p ∧ c.consumed = consumed
  nodup : g.roots.Nodup
  roots : ∀ p, p ∈ g.roots ↔ p ∈ g.dh ∧ ∀ v, ¬ Consumes g.dh v p

/-- An order of some of the cells: those whose consumers are all in it, each before its
consumers. -/
structure Ordered [Blake3 H] (cells ordered : List (Cell H)) : Prop where
  distinct : (ordered.map Cell.produced).Nodup
  subset : ∀ c ∈ ordered, c ∈ cells
  closed : ∀ c ∈ cells, (∀ d ∈ cells, (c.produced ∩ d.consumed).Nonempty → d ∈ ordered) →
    c ∈ ordered
  later : ∀ pre c post, ordered = pre ++ c :: post →
    ∀ d ∈ cells, (c.produced ∩ d.consumed).Nonempty → d ∈ post

section Built
variable [Blake3 H] {cells : List (Cell H)} {g g' : DependencyGraph H}

theorem Built.new : Built ([] : List (Cell H)) new where
  distinct := List.nodup_nil
  edges p consumed := by simp [DependencyGraph.new]
  nodup := List.nodup_nil
  roots p := by simp [DependencyGraph.new, Finmap.notMem_empty]

theorem Built.mem (built : Built cells g) : p ∈ g.dh ↔ ∃ c ∈ cells, c.produced = p := by
  rw [Finmap.mem_iff]
  simp only [built.edges]
  constructor
  · rintro ⟨_, c, member, produces, _⟩
    exact ⟨c, member, produces⟩
  · rintro ⟨c, member, produces⟩
    exact ⟨_, c, member, produces, rfl⟩

theorem Built.consumes_iff (built : Built cells g) {v p : CellIds H} :
    Consumes g.dh v p ↔ ∃ d ∈ cells, d.produced = v ∧ (p ∩ d.consumed).Nonempty := by
  unfold Consumes
  simp only [built.edges]
  constructor
  · rintro ⟨_, ⟨d, member, produces, rfl⟩, meets⟩
    exact ⟨d, member, produces, meets⟩
  · rintro ⟨d, member, produces, meets⟩
    exact ⟨_, ⟨d, member, produces, rfl⟩, meets⟩

/-- A new cell adds the edges from itself. -/
theorem consumes_insert (absent : cell.produced ∉ g.dh) (v p : CellIds H) :
    Consumes (g.dh.insert cell.produced cell.consumed) v p ↔
      Consumes g.dh v p ∨ v = cell.produced ∧ (p ∩ cell.consumed).Nonempty := by
  unfold Consumes
  rw [HashMap.lookup_insert_ite]
  by_cases same : v = cell.produced
  · subst same
    have unknown : g.dh.lookup cell.produced = none := Finmap.lookup_eq_none.mpr absent
    simp [unknown]
  · simp [same]

/-- The roots that a new cell leaves are the old vertices that still have no consumers. -/
theorem Built.kept_iff (built : Built cells g) (absent : cell.produced ∉ g.dh) (p : CellIds H) :
    p ∈ g.roots.filter (fun root => ¬ (cell.consumed ∩ root).Nonempty) ↔
      p ∈ g.dh ∧ ∀ v, ¬ Consumes (g.dh.insert cell.produced cell.consumed) v p := by
  simp only [List.mem_filter, built.roots, decide_eq_true_eq, consumes_insert absent, not_or,
    not_and, forall_and, forall_eq, and_assoc, Finset.inter_comm p]

theorem Built.edges_insert (built : Built cells g) (absent : cell.produced ∉ g.dh)
    (p consumed : CellIds H) :
    (g.dh.insert cell.produced cell.consumed).lookup p = some consumed ↔
      ∃ c ∈ cells ++ [cell], c.produced = p ∧ c.consumed = consumed := by
  rw [HashMap.lookup_insert_ite]
  simp only [List.mem_append, List.mem_singleton, or_and_right, exists_or, exists_eq_left]
  by_cases same : p = cell.produced
  · subst same
    have none_old : ¬ ∃ c ∈ cells, c.produced = cell.produced ∧ c.consumed = consumed := by
      rintro ⟨c, member, produces, _⟩
      exact absent (built.mem.mpr ⟨c, member, produces⟩)
    simp [none_old]
  · simp [same, Ne.symm same, built.edges]

/-- A cell goes into the graph unless one with its ids is there. -/
theorem Built.insert (built : Built cells g) (fresh : cell.produced ∉ cells.map Cell.produced) :
    ∃ g', g.insert cell = .ok g' ∧ Built (cells ++ [cell]) g' := by
  have absent : cell.produced ∉ g.dh := by
    rw [built.mem]
    rintro ⟨c, member, same⟩
    exact fresh (List.mem_map.mpr ⟨c, member, same⟩)
  have kept := built.kept_iff absent
  refine ⟨_, by rw [DependencyGraph.insert, if_neg absent], ?_⟩
  constructor
  · rw [List.map_append, List.nodup_append]
    refine ⟨built.distinct, by simp, ?_⟩
    intro p old q new same
    obtain rfl : q = cell.produced := by simpa using new
    exact fresh (same ▸ old)
  · exact built.edges_insert absent
  · have rest := built.nodup.filter fun root => decide (¬ (cell.consumed ∩ root).Nonempty)
    split
    · exact rest
    · rw [← List.concat_eq_append]
      refine rest.concat fun listed => absent ?_
      exact ((kept cell.produced).mp listed).1
  · intro p
    rw [Finmap.mem_insert]
    split
    · rename_i inbound
      obtain ⟨v, consumes⟩ := hasInboundEdges_iff.mp inbound
      rw [kept]
      constructor
      · exact fun root => ⟨.inr root.1, root.2⟩
      · rintro ⟨rfl | there, free⟩
        · exact absurd consumes (free v)
        · exact ⟨there, free⟩
    · rename_i free
      have unused : ∀ v, ¬ Consumes (g.dh.insert cell.produced cell.consumed) v cell.produced :=
        fun v consumes => free (hasInboundEdges_iff.mpr ⟨v, consumes⟩)
      rw [List.mem_append, List.mem_singleton, kept]
      constructor
      · rintro (root | rfl)
        · exact ⟨.inr root.1, root.2⟩
        · exact ⟨.inl rfl, unused⟩
      · rintro ⟨rfl | there, free⟩
        · exact .inr rfl
        · exact .inl ⟨there, free⟩

theorem Built.peeling (built : Built cells g) : Peeling g.dh g.roots.reverse g.dh [] where
  stripped p := by simp
  nodup := by
    rw [List.append_nil]
    exact List.nodup_reverse.mpr built.nodup
  ready p := by simp [built.roots]
  later pre p post split := by simp at split

theorem Built.sorts (built : Built cells g) (order : Listing (CellIds H)) :
    ∃ ids, g.topological order = .ok ids ∧ Sorts g.dh ids := by
  obtain ⟨ids, found, sorts, _⟩ := built.peeling.finish order (topological_enough g)
    (fun _ _ => True) (fun _ _ _ _ _ _ _ _ => trivial) trivial
  exact ⟨ids, found, sorts⟩

/-- A cell is found by the ids that it produces. -/
theorem Built.filter_eq (built : Built cells g) {c : Cell H} (member : c ∈ cells) :
    cells.filter (fun d => d.produced = c.produced) = [c] := by
  have same : cells.filter (fun d => d.produced = c.produced) = cells.filter (· == c) := by
    refine List.filter_congr fun d there => ?_
    rw [Bool.eq_iff_iff, decide_eq_true_eq, beq_iff_eq]
    exact ⟨List.inj_on_of_nodup_map built.distinct there member, congrArg _⟩
  rw [same, List.filter_beq, List.count_eq_one_of_mem built.distinct.of_map member]
  rfl

/-- The graph does not depend on the order in which the cells are listed. -/
theorem Built.perm (built : Built cells g) {cells' : List (Cell H)} (same : cells.Perm cells') :
    Built cells' g where
  distinct := (same.map _).nodup_iff.mp built.distinct
  edges p consumed := by simp only [built.edges, same.mem_iff]
  nodup := built.nodup
  roots := built.roots

theorem Built.map_produced (built : Built cells g) {ids : List (CellIds H)}
    (inside : ∀ p ∈ ids, p ∈ g.dh) :
    (ids.flatMap fun p => cells.filter fun c => c.produced = p).map Cell.produced = ids := by
  induction ids with
  | nil => rfl
  | cons p ids ih =>
    obtain ⟨vertex, rest⟩ := List.forall_mem_cons.mp inside
    obtain ⟨c, member, rfl⟩ := built.mem.mp vertex
    rw [List.flatMap_cons, List.map_append, built.filter_eq member, ih rest]
    rfl

theorem Sorts.ordered (built : Built cells g) {ids : List (CellIds H)} (sorts : Sorts g.dh ids) :
    Ordered cells (ids.flatMap fun p => cells.filter fun c => c.produced = p) := by
  have mapped := built.map_produced fun p listed => ((sorts.closed p).mp listed).1
  have listed : ∀ c, (c ∈ ids.flatMap fun p => cells.filter fun c => c.produced = p) ↔
      c ∈ cells ∧ c.produced ∈ ids := by
    intro c
    simp only [List.mem_flatMap, List.mem_filter, decide_eq_true_eq]
    constructor
    · rintro ⟨p, member, there, rfl⟩
      exact ⟨there, member⟩
    · rintro ⟨there, member⟩
      exact ⟨_, member, there, rfl⟩
  constructor
  · rw [mapped]
    exact sorts.nodup
  · exact fun c member => ((listed c).mp member).1
  · intro c member all
    refine (listed c).mpr ⟨member, (sorts.closed _).mpr ⟨built.mem.mpr ⟨c, member, rfl⟩, ?_⟩⟩
    intro v consumes
    obtain ⟨d, there, rfl, meets⟩ := built.consumes_iff.mp consumes
    exact ((listed d).mp (all d there meets)).2
  · intro pre c post split d member meets
    have ids_split : ids = pre.map Cell.produced ++ c.produced :: post.map Cell.produced := by
      rw [← mapped, split, List.map_append, List.map_cons]
    have after := sorts.later _ _ _ ids_split d.produced
      (built.consumes_iff.mpr ⟨d, member, rfl, meets⟩)
    obtain ⟨d', there, same⟩ := List.mem_map.mp after
    have member' : d' ∈ cells := by
      have : d' ∈ pre ++ c :: post := by simp [there]
      rw [← split] at this
      exact ((listed d').mp this).1
    rw [← List.inj_on_of_nodup_map built.distinct member' member same]
    exact there

/-- The cells of a built graph are put in order. -/
theorem Built.topologicalCells (built : Built cells g) (order : Listing (CellIds H)) :
    ∃ ordered, g.topologicalCells order cells = .ok ordered ∧ Ordered cells ordered := by
  obtain ⟨ids, found, sorts⟩ := built.sorts order
  refine ⟨_, ?_, sorts.ordered built⟩
  rw [DependencyGraph.topologicalCells, found]
  rfl

end Built

section Ordered
variable [Blake3 H] {cells cells' ordered ordered' : List (Cell H)}

/-- Two orders of the same cells have the same cells. -/
theorem Ordered.sub (one : Ordered cells ordered) (two : Ordered cells' ordered')
    (same : ∀ c, c ∈ cells ↔ c ∈ cells') : ∀ c ∈ ordered, c ∈ ordered' := by
  -- from the end of the list: the consumers of a cell come after it
  suffices suffixes : ∀ post pre, ordered = pre ++ post → ∀ c ∈ post, c ∈ ordered' from
    suffixes ordered [] rfl
  intro post
  induction post with
  | nil => simp
  | cons c post ih =>
    intro pre split
    have rest := ih (pre ++ [c]) (by simp [split])
    refine List.forall_mem_cons.mpr ⟨two.closed c ?_ ?_, rest⟩
    · exact (same c).mp (one.subset c (by simp [split]))
    · intro d member meets
      exact rest d (one.later pre c post split d ((same d).mpr member) meets)

theorem Ordered.perm (one : Ordered cells ordered) (two : Ordered cells' ordered')
    (same : cells.Perm cells') : ordered.Perm ordered' := by
  rw [List.perm_ext_iff_of_nodup one.distinct.of_map two.distinct.of_map]
  intro c
  constructor
  · exact one.sub two (fun c => same.mem_iff) c
  · exact two.sub one (fun c => same.mem_iff.symm) c

/-- One cell consumes from the other, through any number of cells. -/
def Feeds (cells : List (Cell H)) : Cell H → Cell H → Prop :=
  Relation.TransGen fun c d => c ∈ cells ∧ d ∈ cells ∧ (c.produced ∩ d.consumed).Nonempty

/-- A cell comes before those that it feeds. -/
theorem Ordered.feeds_later (order : Ordered cells ordered) {c z : Cell H}
    (feeds : Feeds cells c z) {pre post : List (Cell H)} (split : ordered = pre ++ c :: post) :
    z ∈ post := by
  induction feeds with
  | single edge => exact order.later pre c post split _ edge.2.1 edge.2.2
  | tail _ edge ih =>
    obtain ⟨between, rest, rfl⟩ := List.append_of_mem ih
    have later := order.later (pre ++ c :: between) _ rest (by simp [split]) _ edge.2.1 edge.2.2
    simp [later]

/-- Where no cell depends on itself, all the cells are put in order. -/
theorem Ordered.complete (order : Ordered cells ordered) (acyclic : ∀ c, ¬ Feeds cells c c) :
    ∀ c ∈ cells, c ∈ ordered := by
  have founded : WellFounded fun d c : Cell H =>
      c ∈ cells ∧ d ∈ cells ∧ (c.produced ∩ d.consumed).Nonempty := by
    refine Kahn.wellFounded_of_acyclic cells.finite_toSet (fun d c edge => edge.2.1) ?_
    intro c cycle
    exact acyclic c (Relation.transGen_swap.mp cycle)
  intro c member
  induction c using founded.induction with
  | h c ih =>
    exact order.closed c member fun d there meets => ih d ⟨member, there, meets⟩ there

theorem feeds_irrefl (rank : Cell H → Nat)
    (ascends : ∀ c ∈ cells, ∀ d ∈ cells, (c.produced ∩ d.consumed).Nonempty → rank c < rank d) :
    ∀ c, ¬ Feeds cells c c := by
  have up : ∀ c d, Feeds cells c d → rank c < rank d := by
    intro c d feeds
    induction feeds with
    | single edge => exact ascends _ edge.1 _ edge.2.1 edge.2.2
    | tail _ edge ih => exact ih.trans (ascends _ edge.1 _ edge.2.1 edge.2.2)
  exact fun c cycle => lt_irrefl _ (up c c cycle)

/-- Nothing from a cell on produces an id that the cell consumes. -/
theorem Ordered.apart (order : Ordered cells ordered) {pre post : List (Cell H)} {c d : Cell H}
    (split : ordered = pre ++ c :: post) (from_here : d ∈ c :: post) :
    ¬ (d.produced ∩ c.consumed).Nonempty := by
  intro meets
  have member : c ∈ cells := order.subset c (by simp [split])
  have nodup : (pre ++ c :: post).Nodup := split ▸ order.distinct.of_map
  have once : c ∉ post := (List.nodup_cons.mp (List.nodup_append.mp nodup).2.1).1
  rcases List.mem_cons.mp from_here with rfl | later
  · exact once (order.later pre d post split d member meets)
  · obtain ⟨between, rest, rfl⟩ := List.append_of_mem later
    have after := order.later (pre ++ c :: between) d rest (by simp [split]) c member meets
    exact once (by simp [after])

/-- The hashes rank the cells, so all of them are put in order. -/
theorem Ordered.ranked (order : Ordered cells ordered) (ranked : Ranked H)
    (ids : ∀ (h h' : H) i j, CellId.fromOutput h i = CellId.fromOutput h' j → h = h')
    (distinct : (cells.map Cell.produced).Nodup) : ordered.Perm cells := by
  rw [List.perm_ext_iff_of_nodup order.distinct.of_map distinct.of_map]
  obtain ⟨rank, ascends⟩ := ranked
  refine fun c => ⟨order.subset c, order.complete (feeds_irrefl (fun c => rank c.hash) ?_) c⟩
  rintro c _ d _ ⟨id, both⟩
  obtain ⟨produced, consumed⟩ := Finset.mem_inter.mp both
  obtain ⟨i, _, rfl⟩ := Cell.mem_produced.mp produced
  obtain ⟨input, spent, same⟩ := Finset.mem_image.mp consumed
  have hash : input.outputIndex.cellHash = c.hash := ids _ _ _ _ same
  exact hash ▸ ascends d input spent

end Ordered
end Subzero.DependencyGraph
