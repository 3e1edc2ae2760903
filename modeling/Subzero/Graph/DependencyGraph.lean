import Subzero.Cell
import Subzero.Graph.Dag

/-! The dependency graph puts the cells of a block in order: a cell comes after the
cells whose outputs it consumes. Serialising an id does not fail, so the errors of
`from_outputs` and `from_inputs` are left out. -/
namespace Subzero

abbrev CellIds (H : Type) := Finset (CellId H)

/-- From the ids that a cell produces to the ids that it consumes, with the vertices
that have no inbound edges. -/
structure DependencyGraph (H : Type) where
  dh : HashMap (CellIds H) (CellIds H)
  roots : List (CellIds H)

namespace DependencyGraph
variable {H : Type} [DecidableEq H]

/-- Some of the produced ids are consumed. -/
def hasInboundEdges (dh : HashMap (CellIds H) (CellIds H)) (produced : CellIds H) : Bool :=
  decide (∃ p ∈ dh.keys, ∃ consumed ∈ dh.lookup p, (produced ∩ consumed).Nonempty)

def new : DependencyGraph H := ⟨∅, []⟩

/-- A root whose ids are consumed by the new cell is a root no longer. The new cell
is one unless its own ids are consumed, by itself or by a cell that is there. -/
def insert [Blake3 H] (g : DependencyGraph H) (cell : Cell H) :
    Except (GraphError H) (DependencyGraph H) :=
  if cell.produced ∈ g.dh then .error .duplicateCell
  else
    let dh := g.dh.insert cell.produced cell.consumed
    let roots := g.roots.filter fun root => ¬ (cell.consumed ∩ root).Nonempty
    .ok ⟨dh, if hasInboundEdges dh cell.produced then roots else roots ++ [cell.produced]⟩

/-- The producers that have lost their last inbound edge with the removed ones. -/
def freed (order : Listing (CellIds H)) (graph : HashMap (CellIds H) (CellIds H))
    (removed : CellIds H) : List (CellIds H) :=
  (order.list graph.keys).filter fun producer =>
    (producer ∩ removed).Nonempty ∧ ¬ hasInboundEdges graph producer

/-- The loop of `topological`. The last root comes first in the list here. -/
def peel (order : Listing (CellIds H)) : Nat → List (CellIds H) →
    HashMap (CellIds H) (CellIds H) → List (CellIds H) →
    Except (GraphError H) (List (CellIds H))
  | _, [], _, sorted => .ok sorted
  | 0, _ :: _, _, sorted => .ok sorted
  | fuel + 1, root :: roots, graph, sorted =>
    match graph.lookup root with
    | none => .error .undefinedCell
    | some removed =>
      let graph := graph.insert root ∅
      peel order fuel ((freed order graph removed).reverse ++ roots) graph (root :: sorted)

/-- Every pass either finds the edges of its root removed and frees nothing, or
removes them; the fuel is enough for that. -/
def topological (order : Listing (CellIds H)) (g : DependencyGraph H) :
    Except (GraphError H) (List (CellIds H)) :=
  peel order (g.roots.length + g.dh.keys.card * g.dh.keys.card) g.roots.reverse g.dh []

def topologicalCells [Blake3 H] (order : Listing (CellIds H)) (g : DependencyGraph H)
    (cells : List (Cell H)) : Except (GraphError H) (List (Cell H)) :=
  (g.topological order).map fun sorted =>
    sorted.flatMap fun ids => cells.filter fun cell => cell.produced = ids

/-- The vertices whose edges have not been removed. -/
def standing (graph : HashMap (CellIds H) (CellIds H)) : Finset (CellIds H) :=
  graph.keys.filter fun p => graph.lookup p ≠ some ∅

theorem freed_length (order : Listing (CellIds H)) (graph : HashMap (CellIds H) (CellIds H))
    (removed : CellIds H) : (freed order graph removed).length ≤ graph.keys.card := by
  rw [← order.length_list graph.keys]
  exact List.length_filter_le _ _

theorem freed_empty (order : Listing (CellIds H)) (graph : HashMap (CellIds H) (CellIds H)) :
    freed order graph ∅ = [] := by
  simp [freed]

theorem standing_insert {graph : HashMap (CellIds H) (CellIds H)} {root removed : CellIds H}
    (found : graph.lookup root = some removed) :
    standing (graph.insert root ∅) = (standing graph).erase root := by
  ext x
  simp only [standing, Finset.mem_filter, Finset.mem_erase, HashMap.lookup_insert_ite,
    HashMap.keys_insert_of_mem (Finmap.mem_of_lookup_eq_some found)]
  by_cases here : x = root <;> simp [here]

/-- The fuel that is left after a round is enough again. -/
theorem round_fuel (order : Listing (CellIds H)) {fuel : Nat} {roots : List (CellIds H)}
    {graph : HashMap (CellIds H) (CellIds H)} {root removed : CellIds H}
    (found : graph.lookup root = some removed)
    (enough : (root :: roots).length + (standing graph).card * graph.keys.card ≤ fuel + 1) :
    ((freed order (graph.insert root ∅) removed).reverse ++ roots).length +
      (standing (graph.insert root ∅)).card * (graph.insert root ∅).keys.card ≤ fuel := by
  have keys := HashMap.keys_insert_of_mem (Finmap.mem_of_lookup_eq_some found) ∅
  have few := freed_length order (graph.insert root ∅) removed
  rw [keys] at few
  rw [List.length_append, List.length_reverse, standing_insert found, keys]
  rw [List.length_cons] at enough
  by_cases empty : removed = ∅
  · subst empty
    have smaller : ((standing graph).erase root).card ≤ (standing graph).card :=
      Finset.card_erase_le
    have product := Nat.mul_le_mul_right graph.keys.card smaller
    rw [freed_empty, List.length_nil]
    omega
  · -- the root was standing, and its edges pay for what it frees
    have there : root ∈ standing graph := by
      simp [standing, found, empty, Finmap.mem_keys, Finmap.mem_of_lookup_eq_some found]
    have size := Finset.card_erase_add_one there
    rw [← size, Nat.add_mul] at enough
    omega

/-- More fuel makes no difference: the loop ends by itself. -/
theorem peel_fuel (order : Listing (CellIds H)) {fuel : Nat} {roots : List (CellIds H)}
    {graph : HashMap (CellIds H) (CellIds H)} {sorted : List (CellIds H)}
    (enough : roots.length + (standing graph).card * graph.keys.card ≤ fuel) (more : Nat) :
    peel order (fuel + more) roots graph sorted = peel order fuel roots graph sorted := by
  induction fuel generalizing roots graph sorted with
  | zero =>
    obtain rfl : roots = [] := List.eq_nil_of_length_eq_zero (by omega)
    cases more <;> rfl
  | succ fuel ih =>
    cases roots with
    | nil =>
      rw [Nat.add_right_comm]
      rfl
    | cons root roots =>
      rw [Nat.add_right_comm, peel, peel]
      cases found : graph.lookup root with
      | none => rfl
      | some removed => exact ih (round_fuel order found enough)

/-- The fuel of `topological` is enough. -/
theorem topological_enough (g : DependencyGraph H) :
    g.roots.reverse.length + (standing g.dh).card * g.dh.keys.card ≤
      g.roots.length + g.dh.keys.card * g.dh.keys.card := by
  have inside : (standing g.dh).card ≤ g.dh.keys.card := Finset.card_filter_le _ _
  have product := Nat.mul_le_mul_right g.dh.keys.card inside
  rw [List.length_reverse]
  omega

theorem topological_fuel (order : Listing (CellIds H)) (g : DependencyGraph H) (more : Nat) :
    peel order (g.roots.length + g.dh.keys.card * g.dh.keys.card + more) g.roots.reverse g.dh [] =
      g.topological order :=
  peel_fuel order (topological_enough g) more

end DependencyGraph
end Subzero
