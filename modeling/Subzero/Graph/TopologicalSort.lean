import Subzero.Graph.Mutations
import Subzero.Lib.Kahn

/-! The topological order of a DAG and the ancestors of a vertex in it. The order is that
of Kahn's algorithm on the inverted DAG. It ends on every acyclic DAG whose inverted edges
are its edges turned round; inverted edges that an insertion left behind can keep it going
for ever. -/
namespace Subzero.DAG
variable {V : Type} [DecidableEq V]

/-- Turns all inbound edges into outbound edges. -/
def invert (d : DAG V) : DAG V := ⟨d.inv, d.g, d.chits⟩

/-- `none` is a panic on a missing entry, or a loop that takes more rounds than the fuel. -/
def topologicalSort (fuel : Nat) (order : Listing V) (d : DAG V) : Option (List V) :=
  let dag := d.invert
  Kahn.sort dag.g fuel (dag.leaves order) dag.inv

/-- All the ancestors, parents before children. -/
def getAncestors (fuel : Nat) (order : Listing V) (d : DAG V) (v : V) : Option (List V) :=
  (d.topologicalSort fuel order).map fun sorted =>
    sorted.filter fun e => e ∈ (d.dfs v).toFinset.erase v

section Sorted
variable {d : DAG V} {fuel : Nat} {order : Listing V} {sorted : List V}

theorem mem_leaves_invert {v : V} : v ∈ d.invert.leaves order ↔ d.g.lookup v = some [] := by
  unfold leaves invert
  rw [List.mem_filter, order.mem, Finmap.mem_keys, decide_eq_true_iff]
  exact ⟨fun h => h.2, fun found => ⟨Finmap.mem_of_lookup_eq_some found, found⟩⟩

/-- In any DAG on which the sort returns, parents are before their children. -/
theorem topologicalSort_ordered (done : d.topologicalSort fuel order = some sorted) :
    Kahn.Ordered d.Parent [] sorted := by
  refine Kahn.Sorts.ordered (.start fun v leaf => ?_) (Kahn.sort_sorts done)
  exact mem_leaves_invert.mp leaf

theorem Linked.parents_founded (linked : Linked d) (acyclic : Acyclic d) :
    WellFounded fun p v => d.Parent v p := by
  refine Kahn.wellFounded_of_acyclic d.g.keys.finite_toSet (fun p v edge => ?_) fun v cycle => ?_
  · exact Finmap.mem_keys.mpr (linked.closed v p edge)
  · exact acyclic v (Relation.transGen_swap.mp cycle)

section Leaves
variable (edges : ∀ v p, d.Parent v p ↔ d.Child p v) (acyclic : Acyclic d)
include edges acyclic

theorem children_founded : WellFounded fun c v => d.Child v c := by
  refine Kahn.wellFounded_of_acyclic d.g.keys.finite_toSet (fun c v child => ?_) fun v cycle => ?_
  · exact Finmap.mem_keys.mpr ((edges c v).mpr child).mem
  · refine acyclic v (Relation.TransGen.mono (fun c v child => ?_) v v cycle)
    exact (edges c v).mpr child

/-- Every vertex is a leaf or an ancestor of one. -/
theorem leaf_below (entry : ∀ v ∈ d.g, v ∈ d.inv) (order : Listing V) {v : V}
    (vertex : v ∈ d.g) : ∃ leaf ∈ d.leaves order, d.Ancestor leaf v := by
  induction v using (children_founded edges acyclic).induction with
  | h v ih =>
    obtain ⟨children, found⟩ := Finmap.mem_iff.mp (entry v vertex)
    cases children with
    | nil =>
      refine ⟨v, List.mem_filter.mpr ⟨?_, by simpa using found⟩, .refl⟩
      exact (order.mem _ _).mpr (Finmap.mem_keys.mpr (entry v vertex))
    | cons c children =>
      have child : d.Child v c := ⟨_, found, List.mem_cons_self⟩
      have edge := (edges c v).mpr child
      obtain ⟨leaf, listed, path⟩ := ih c child edge.mem
      exact ⟨leaf, listed, path.tail edge⟩

end Leaves

/-- Every vertex is sorted, once all its ancestors are. -/
theorem topologicalSort_complete (linked : Linked d) (acyclic : Acyclic d)
    (done : d.topologicalSort fuel order = some sorted) {v : V} (vertex : v ∈ d.g) :
    v ∈ sorted := by
  induction v using (linked.parents_founded acyclic).induction with
  | h v ih =>
    have taken : ∀ p, d.Parent v p → p ∈ sorted ∨ p ∈ [] := fun p edge =>
      .inl (ih p edge (linked.closed v p edge))
    refine (Kahn.Sorts.closed (fun v p children found edge => ?_) (.start fun v leaf => ?_)
      (.start fun v root => ?_) (Kahn.sort_sorts done) vertex taken).resolve_right List.not_mem_nil
    · obtain ⟨cs, there, member⟩ := linked.back v p edge
      obtain rfl : cs = children := Option.mem_unique there found
      exact member
    · exact mem_leaves_invert.mp leaf
    · exact mem_leaves_invert.mpr root

/-- The sort returns on an acyclic DAG with exactly its own inverted edges. -/
theorem topologicalSort_total (transposed : Transposed d) (acyclic : Acyclic d)
    (order : Listing V) : ∃ fuel sorted, d.topologicalSort fuel order = some sorted := by
  refine Kahn.sort_total (children_founded transposed.edges acyclic) (fun v c child => ?_)
    (fun v leaf => ?_) fun v entry => (transposed.keys v).mpr entry
  · exact (transposed.keys c).mp ((transposed.edges c v).mpr child).mem
  · exact (transposed.keys v).mp (Finmap.mem_of_lookup_eq_some (mem_leaves_invert.mp leaf))

/-- Two vertices that wait for nobody else put each other on the queue. -/
theorem sort_swaps {next waits : HashMap V (List V)} {a b : V} (toB : next.lookup a = some [b])
    (toA : next.lookup b = some [a]) (idle : waits.lookup a = some [])
    (waiting : ∃ l, waits.lookup b = some l ∧ l.filter (· ≠ a) = []) (n : Nat) :
    Kahn.sort next n [a] waits = none := by
  induction n generalizing a b waits with
  | zero => rfl
  | succ n ih =>
    obtain ⟨l, found, empty⟩ := waiting
    have released : Kahn.release a [b] waits =
        some ([b], (waits.insert b [] : HashMap V (List V))) := by
      simp only [Kahn.release, found, empty, Option.map_some, if_true]
    have still : (waits.insert b [] : HashMap V (List V)).lookup a = some [] := by
      rw [HashMap.lookup_insert_ite, idle, ite_self]
    have rest := ih toA toB (Finmap.lookup_insert waits) ⟨[], still, rfl⟩
    simp only [Kahn.sort, toB, released, List.nil_append, rest, Option.map_none]

/-- A vertex without parents is inserted again below its own child. The insertion fails, but
the inverted edge that it leaves behind makes a cycle that the sort never leaves. -/
theorem topologicalSort_diverges :
    ∃ steps d, Run mutateAny (new : DAG Nat) steps d ∧ Acyclic d ∧
      ∀ (order : Listing Nat) (fuel : Nat), d.topologicalSort fuel order = none := by
  have found : (exec mutateAny (new : DAG Nat)
      [.insertVx 0 [], .insertVx 1 [0], .insertVx 0 [1]]).any fun r =>
      decide (r.2.g.keys = {0, 1} ∧ r.2.g.lookup 0 = some [] ∧ r.2.g.lookup 1 = some [0] ∧
        r.2.inv.lookup 0 = some [1] ∧ r.2.inv.lookup 1 = some [0]) := by
    decide +kernel
  obtain ⟨steps, d, run, facts⟩ := exec_any found
  obtain ⟨keys, g0, g1, inv0, inv1⟩ := of_decide_eq_true facts
  refine ⟨steps, d, run, .of_rank id fun v p edge => ?_, fun order fuel => ?_⟩
  · obtain ⟨l, found, member⟩ := parent_iff.mp edge
    have vertex : v = 0 ∨ v = 1 := by
      simpa [keys] using HashMap.mem_keys_of_lookup found
    rcases vertex with rfl | rfl
    · rw [g0] at found
      cases found
      contradiction
    · rw [g1] at found
      cases found
      simp [List.mem_singleton.mp member]
  · have queue : d.invert.leaves order = [0] := by
      have single : (d.invert.leaves order).toFinset = {0} := by
        ext v
        rw [List.mem_toFinset, mem_leaves_invert, Finset.mem_singleton]
        constructor
        · intro empty
          have vertex : v = 0 ∨ v = 1 := by
            simpa [keys] using HashMap.mem_keys_of_lookup empty
          exact vertex.resolve_right (by rintro rfl; simp [g1] at empty)
        · rintro rfl
          exact g0
      have nodup : (d.invert.leaves order).Nodup := (order.nodup _).filter _
      have length := List.toFinset_card_of_nodup nodup
      rw [single, Finset.card_singleton] at length
      obtain ⟨v, eq⟩ := List.length_eq_one_iff.mp length.symm
      rw [eq] at single ⊢
      simpa using single
    unfold topologicalSort
    simp only [queue]
    exact sort_swaps inv0 inv1 g0 ⟨[0], g1, by simp⟩ fuel

end Sorted

section Built
variable {d d' : DAG V}

theorem Acyclic.of_parent (acyclic : Acyclic d) (sub : ∀ v p, d'.Parent v p → d.Parent v p) :
    Acyclic d' := fun v cycle => acyclic v (Relation.TransGen.mono sub v v cycle)

/-- An insertion adds no cycle if the parents are vertices: nothing is below the new vertex. -/
theorem Acyclic.insertVx {vx : V} {edges : List V} (acyclic : Acyclic d) (linked : Linked d)
    (inside : ∀ e ∈ edges, e ∈ d.g) (left : (d.insertVx vx edges).state? = some d') :
    Acyclic d' := by
  obtain ⟨_, _, ⟨_, same, _⟩ | ⟨fresh, grown⟩⟩ := insertVx_cases linked inside left
  · refine acyclic.of_parent fun v p edge => ?_
    rwa [parent_iff, same] at edge
  · have edge : ∀ v p, d'.Parent v p → p ∈ d.g ∧ (v ≠ vx → d.Parent v p) := by
      intro v p edge
      rw [parent_insert grown] at edge
      split at edge
      · rename_i here
        exact ⟨inside p edge, fun other => absurd here other⟩
      · exact ⟨linked.closed v p edge, fun _ => edge⟩
    -- a path goes on along old edges once it has left the new vertex
    have old : ∀ v p, v ≠ vx → Relation.TransGen d'.Parent v p →
        Relation.TransGen d.Parent v p ∧ p ∈ d.g := by
      intro v p other path
      induction path with
      | single first => exact ⟨.single ((edge _ _ first).2 other), (edge _ _ first).1⟩
      | tail _ last ih =>
        have apart : ∀ {u}, u ∈ d.g → u ≠ vx := fun member same => fresh (same ▸ member)
        exact ⟨ih.1.tail ((edge _ _ last).2 (apart ih.2)), (edge _ _ last).1⟩
    intro v cycle
    by_cases here : v = vx
    · obtain ⟨u, _, last⟩ := Relation.TransGen.tail'_iff.mp cycle
      exact fresh (here ▸ (edge u v last).1)
    · exact acyclic v (old v v here cycle).1

end Built

section Ancestors
variable {d : DAG V} {fuel : Nat} {order : Listing V} {v : V} {hashes : List V}

theorem getAncestors_ordered (linked : Linked d) (acyclic : Acyclic d) (vertex : v ∈ d.g)
    (answered : d.getAncestors fuel order v = some hashes) : Kahn.Ordered d.Parent [] hashes := by
  obtain ⟨sorted, done, rfl⟩ := Option.map_eq_some_iff.mp answered
  refine Kahn.Ordered.filter (fun u p member edge => ?_) (topologicalSort_ordered done)
  simp only [decide_eq_true_iff, Finset.mem_erase, List.mem_toFinset, linked.mem_dfs] at member ⊢
  obtain ⟨_, _, path⟩ := member
  refine ⟨?_, vertex, path.tail edge⟩
  rintro rfl
  exact acyclic p (Relation.TransGen.tail' path edge)

/-- The ancestors of a vertex without itself. -/
theorem mem_getAncestors (linked : Linked d) (acyclic : Acyclic d) (vertex : v ∈ d.g)
    (answered : d.getAncestors fuel order v = some hashes) {a : V} :
    a ∈ hashes ↔ a ≠ v ∧ d.Ancestor v a := by
  obtain ⟨sorted, done, rfl⟩ := Option.map_eq_some_iff.mp answered
  rw [List.mem_filter, decide_eq_true_iff, Finset.mem_erase, List.mem_toFinset, linked.mem_dfs]
  constructor
  · rintro ⟨_, other, _, path⟩
    exact ⟨other, path⟩
  · rintro ⟨other, path⟩
    refine ⟨?_, other, vertex, path⟩
    exact topologicalSort_complete linked acyclic done (linked.ancestor_mem vertex path)

end Ancestors
end Subzero.DAG
