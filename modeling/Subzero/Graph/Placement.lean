import Subzero.Graph.Ordering

/-! Where the order puts the first and the last root. The roots are a stack, and what is
listed first comes last in the order. So the last root ends the order, and the first one
comes as soon as the cells that it depends on. -/
namespace Subzero.DependencyGraph
variable {H : Type} [DecidableEq H]

/-- A vertex is still at the bottom of the stack, or nothing else is listed after it but
what it depends on. -/
def Low (dh : HashMap (CellIds H) (CellIds H)) (z : CellIds H)
    (roots sorted : List (CellIds H)) : Prop :=
  (∃ above, roots = above ++ [z]) ∨
    ∃ front back, sorted = front ++ z :: back ∧
      ∀ p ∈ roots ++ front, Relation.TransGen (Consumes dh) z p

theorem Low.pop (order : Listing (CellIds H)) {dh graph : HashMap (CellIds H) (CellIds H)}
    {z root removed : CellIds H} {roots sorted : List (CellIds H)}
    (inv : Peeling dh (root :: roots) graph sorted) (known : dh.lookup root = some removed)
    (low : Low dh z (root :: roots) sorted) :
    Low dh z ((freed order (graph.insert root ∅) removed).reverse ++ roots) (root :: sorted) := by
  have consumes : ∀ p ∈ (freed order (graph.insert root ∅) removed).reverse,
      Consumes dh root p := by
    intro p free
    have stripped := inv.stripped.pop (Finmap.mem_of_lookup_eq_some known)
    exact ((stripped.mem_freed order known).mp (List.mem_reverse.mp free)).2.1
  rcases low with ⟨above, split⟩ | ⟨front, back, rfl, all⟩
  · cases above with
    | nil =>
      obtain ⟨rfl, rfl⟩ := List.cons.inj split
      refine .inr ⟨[], sorted, rfl, fun p member => .single (consumes p ?_)⟩
      simpa using member
    | cons _ above =>
      obtain ⟨rfl, rfl⟩ := List.cons.inj split
      exact .inl ⟨_, (List.append_assoc _ _ _).symm⟩
  · have depends : Relation.TransGen (Consumes dh) z root := all root (by simp)
    refine .inr ⟨root :: front, back, rfl, fun p member => ?_⟩
    simp only [List.mem_append, List.mem_cons] at member
    rcases member with (free | waiting) | rfl | listed
    · exact depends.tail (consumes p free)
    · exact all p (by simp [waiting])
    · exact depends
    · exact all p (by simp [listed])

section Cells
variable [Blake3 H] {cells ordered : List (Cell H)} {g : DependencyGraph H}

/-- What a vertex depends on are the cells that feed its cell. -/
theorem Built.feeds (built : Built cells g) {z : Cell H} (last : z ∈ cells) {p : CellIds H}
    (depends : Relation.TransGen (Consumes g.dh) z.produced p) :
    ∀ c ∈ cells, c.produced = p → Feeds cells c z := by
  induction depends with
  | single consumes =>
    rintro c member rfl
    obtain ⟨d, there, same, meets⟩ := built.consumes_iff.mp consumes
    obtain rfl := List.inj_on_of_nodup_map built.distinct there last same
    exact .single ⟨member, there, meets⟩
  | tail _ consumes ih =>
    rintro c member rfl
    obtain ⟨d, there, same, meets⟩ := built.consumes_iff.mp consumes
    exact .head ⟨member, there, meets⟩ (ih d there same)

/-- The first root has only the cells before it that feed it. -/
theorem Built.first_root (built : Built cells g) (order : Listing (CellIds H)) {z : Cell H}
    (member : z ∈ cells) {rest : List (CellIds H)} (first : g.roots = z.produced :: rest) :
    ∃ front back, g.topologicalCells order cells = .ok (front ++ z :: back) ∧
      ∀ c ∈ front, Feeds cells c z := by
  obtain ⟨ids, found, sorts, low⟩ := built.peeling.finish order (topological_enough g)
    (Low g.dh z.produced)
    (fun root roots graph sorted removed inv known low => low.pop order inv known)
    (.inl ⟨rest.reverse, by rw [first, List.reverse_cons]⟩)
  rcases low with ⟨above, split⟩ | ⟨front, back, rfl, all⟩
  · simp at split
  · let listed := fun ids : List (CellIds H) =>
      ids.flatMap fun p => cells.filter fun c => c.produced = p
    refine ⟨listed front, listed back, ?_, fun c there => ?_⟩
    · rw [DependencyGraph.topologicalCells, topological, found]
      simp only [Except.map, List.flatMap_append, List.flatMap_cons, built.filter_eq member]
      rfl
    · obtain ⟨p, before, inside⟩ := List.mem_flatMap.mp there
      obtain ⟨known, same⟩ := List.mem_filter.mp inside
      exact built.feeds member (all p (by simp [before])) c known (of_decide_eq_true same)

/-- The last root ends the order. -/
theorem Built.last_root (built : Built cells g) (order : Listing (CellIds H)) {z : Cell H}
    (member : z ∈ cells) {rest : List (CellIds H)} (last : g.roots = rest ++ [z.produced]) :
    ∃ front, g.topologicalCells order cells = .ok (front ++ [z]) := by
  obtain ⟨ids, found, _, ended⟩ := built.peeling.finish order (topological_enough g)
    (fun roots sorted => (sorted = [] ∧ ∃ below, roots = z.produced :: below) ∨
      ∃ front, sorted = front ++ [z.produced])
    (by
      rintro root roots graph sorted removed _ _ (⟨rfl, below, top⟩ | ⟨front, rfl⟩)
      · obtain ⟨rfl, rfl⟩ := List.cons.inj top
        exact .inr ⟨[], rfl⟩
      · exact .inr ⟨root :: front, rfl⟩)
    (.inl ⟨rfl, rest.reverse, by simp [last]⟩)
  rcases ended with ⟨_, below, top⟩ | ⟨front, rfl⟩
  · cases top
  · refine ⟨front.flatMap fun p => cells.filter fun c => c.produced = p, ?_⟩
    rw [DependencyGraph.topologicalCells, topological, found]
    simp only [Except.map, List.flatMap_append, List.flatMap_singleton, built.filter_eq member]

end Cells
end Subzero.DependencyGraph
