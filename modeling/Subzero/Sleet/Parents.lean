import Mathlib.Order.Antichain
import Subzero.Sleet.Frontier
import Subzero.Sleet.Selection

/-! The parents that are selected. They are distinct, strongly preferred vertices. What is
chosen later may still have an earlier choice in its ancestry, and this is the only way in
which two parents are related. It does not happen if the search from a leaf meets the
descendants of a vertex before the vertex itself. -/
namespace Subzero.Sleet
variable {H : Type} [DecidableEq H]

/-- No vertex that is picked for a leaf has an earlier choice in its ancestry. -/
def Unrelated (s : Sleet H) (p : Nat) : List H → List H → Prop
  | [], _ => True
  | leaf :: rest, chosen =>
    chosen.length < p →
      (∀ v ∈ s.pick chosen (s.dag.dfs leaf), ∀ a ∈ chosen, a ∉ s.dag.dfs v) ∧
        Unrelated s p rest (chosen ++ (s.pick chosen (s.dag.dfs leaf)).toList)

/-- Strongly preferred, and in the ancestry of no leaf that is. -/
def Vacant (s : Sleet H) (leaves : List H) (v : H) : Prop :=
  s.Strong v ∧ ∀ l ∈ leaves, s.Strong l → v ∉ s.dag.dfs l

/-- The search from a leaf can come to a vacant vertex: the vacant vertices that it meets before
are in the ancestry of earlier leaves, too. -/
def ComesTo (s : Sleet H) (leaves before : List H) (leaf v : H) : Prop :=
  v ∈ s.dag.dfs leaf ∧ s.Vacant leaves v ∧
    ∀ u ∈ (s.dag.dfs leaf).takeWhile (· ≠ v), s.Vacant leaves u → ∃ l ∈ before, u ∈ s.dag.dfs l

/-- If the search from a leaf can come to a vertex, and that from a later leaf to a descendant
of it, then the first search meets the descendant before. -/
def Apart (s : Sleet H) (leaves : List H) : Prop :=
  ∀ e ∈ leaves.zipIdx, ∀ e' ∈ leaves.zipIdx, e.2 < e'.2 → ∀ c ∈ s.dag.dfs e.1,
    ∀ x ∈ s.dag.dfs e'.1, s.ComesTo leaves (leaves.take e.2) e.1 c →
      s.ComesTo leaves (leaves.take e'.2) e'.1 x → c ∈ s.dag.dfs x → c ≠ x →
      x ∈ (s.dag.dfs e.1).takeWhile (· ≠ c)

instance (s : Sleet H) (leaves : List H) (v : H) : Decidable (s.Vacant leaves v) :=
  inferInstanceAs (Decidable (_ ∧ ∀ l ∈ leaves, _))

instance (s : Sleet H) (leaves before : List H) (leaf v : H) :
    Decidable (s.ComesTo leaves before leaf v) :=
  inferInstanceAs (Decidable (_ ∧ _ ∧ ∀ u ∈ List.takeWhile _ _, _))

instance (s : Sleet H) (leaves : List H) : Decidable (s.Apart leaves) :=
  inferInstanceAs (Decidable (∀ e ∈ leaves.zipIdx, _))

/-- No more than `p` distinct vertices, all strongly preferred. -/
structure Eligible (s : Sleet H) (p : Nat) (chosen : List H) : Prop where
  few : chosen.length ≤ p
  nodup : chosen.Nodup
  vertex : ∀ v ∈ chosen, v ∈ s.dag.g
  strong : ∀ v ∈ chosen, s.Strong v

theorem pick_some {s : Sleet H} {chosen l : List H} {v : H} (picked : s.pick chosen l = some v) :
    v ∈ l ∧ s.Strong v ∧ v ∉ chosen ∧ ∀ a ∈ chosen, v ∉ s.dag.dfs a := by
  have member := List.mem_of_find?_eq_some picked
  have takes := List.find?_some picked
  rw [decide_eq_true_eq] at takes
  obtain ⟨strong, fresh, apart⟩ := takes
  refine ⟨member, strong, fresh, fun a listed inside => apart ?_⟩
  exact List.mem_flatMap.mpr ⟨a, listed, inside⟩

theorem Eligible.pick {s : Sleet H} {p : Nat} {chosen : List H} (eligible : s.Eligible p chosen)
    (room : chosen.length < p) (leaf : H) :
    s.Eligible p (chosen ++ (s.pick chosen (s.dag.dfs leaf)).toList) := by
  cases picked : s.pick chosen (s.dag.dfs leaf) with
  | none => simpa using eligible
  | some v =>
    obtain ⟨member, strong, fresh, _⟩ := pick_some picked
    have all : ∀ {P : H → Prop}, (∀ u ∈ chosen, P u) → P v →
        ∀ u ∈ chosen ++ (some v).toList, P u := by
      intro P old new u listed
      rcases List.mem_append.mp listed with before | here
      · exact old u before
      · cases List.mem_singleton.mp here
        exact new
    refine ⟨?_, ?_, all eligible.vertex (DAG.dfs_mem member), all eligible.strong strong⟩
    · rw [List.length_append, Option.toList_some, List.length_singleton]
      omega
    · exact List.nodup_append.mpr ⟨eligible.nodup, List.nodup_singleton v, fun u before w here =>
        fun same => fresh (List.mem_singleton.mp here ▸ same ▸ before)⟩

section Antichain
variable {s : Sleet H} (proper : s.Proper) {p : Nat}
include proper

theorem Proper.decided (v : H) : ∃ b, s.isStronglyPreferred v = .ok b :=
  allPreferred_ok fun a member => proper.sets a (DAG.dfs_mem (v := v) member)

theorem Proper.leaf_vertex {order : Listing H} {v : H} (leaf : v ∈ s.dag.leaves order) :
    v ∈ s.dag.g ∧ ∀ u, ¬ s.dag.Parent u v := by
  obtain ⟨listed, childless⟩ := List.mem_filter.mp leaf
  refine ⟨?_, fun u edge => ?_⟩
  · exact (proper.transposed.keys v).mpr (Finmap.mem_keys.mp ((order.mem _ _).mp listed))
  · obtain ⟨children, found, member⟩ := (proper.transposed.edges u v).mp edge
    cases found.symm.trans (of_decide_eq_true childless)
    exact List.not_mem_nil member

omit proper in
/-- What is strongly preferred and comes before a pick is in the ancestry of a choice. -/
theorem pick_first {chosen l : List H} {v : H} (picked : s.pick chosen l = some v) :
    ∀ u ∈ l.takeWhile (· ≠ v), s.Strong u → u ∈ chosen ∨ u ∈ chosen.flatMap s.dag.dfs := by
  induction l with
  | nil => simp
  | cons w l ih =>
    rw [pick_cons] at picked
    split at picked
    · cases picked
      simp
    · rename_i passed
      intro u before strong
      rw [List.takeWhile_cons] at before
      split at before
      · rcases List.mem_cons.mp before with rfl | later
        · by_contra free
          push Not at free
          exact passed ⟨strong, free.1, free.2⟩
        · exact ih picked u later strong
      · cases before

/-- What is chosen so far: the strongly preferred leaves, and then picks. The search from the
leaf of a pick came to it when all that is strongly preferred before was in the ancestry of a
choice. -/
def Picked (s : Sleet H) (leaves before chosen : List H) : Prop :=
  ∃ picks, chosen = leaves.filter (fun v => s.Strong v) ++ picks ∧ ∀ a ∈ picks,
    ∃ e ∈ leaves.zipIdx, e.2 < before.length ∧ s.ComesTo leaves (leaves.take e.2) e.1 a ∧
      ∀ x ∈ (s.dag.dfs e.1).takeWhile (· ≠ a), s.Strong x → x ∈ chosen.flatMap s.dag.dfs

omit [DecidableEq H] proper in
theorem position {leaves before rest : List H} {leaf : H}
    (whole : leaves = before ++ leaf :: rest) :
    (leaf, before.length) ∈ leaves.zipIdx ∧ leaves.take before.length = before := by
  subst whole
  refine ⟨?_, List.take_left⟩
  rw [List.mem_zipIdx_iff_getElem?, List.getElem?_append_right le_rfl, Nat.sub_self]
  rfl

section Pick
variable {order : Listing H} {before rest chosen : List H} {leaf v : H}

theorem Proper.pick_comesTo (whole : s.dag.leaves order = before ++ leaf :: rest)
    (so_far : s.Picked (s.dag.leaves order) before chosen)
    (picked : s.pick chosen (s.dag.dfs leaf) = some v) :
    s.ComesTo (s.dag.leaves order) before leaf v ∧
      ∀ x ∈ (s.dag.dfs leaf).takeWhile (· ≠ v), s.Strong x → x ∈ chosen.flatMap s.dag.dfs := by
  obtain ⟨picks, rfl, made⟩ := so_far
  obtain ⟨member, strong, fresh, apart⟩ := pick_some picked
  have self : ∀ {u}, u ∈ s.dag.g → u ∈ s.dag.dfs u := fun vertex =>
    proper.linked.mem_dfs.mpr ⟨vertex, .refl⟩
  have covered : ∀ x ∈ (s.dag.dfs leaf).takeWhile (· ≠ v), s.Strong x →
      x ∈ ((s.dag.leaves order).filter (fun v => s.Strong v) ++ picks).flatMap s.dag.dfs := by
    intro x earlier preferred
    rcases pick_first picked x earlier preferred with chosen | below
    · exact List.mem_flatMap.mpr ⟨x, chosen, self (DAG.dfs_mem (List.takeWhile_subset _ earlier))⟩
    · exact below
  refine ⟨⟨member, ⟨strong, fun l listed preferred => ?_⟩, fun u earlier free => ?_⟩, covered⟩
  · refine apart l (List.mem_append_left _ (List.mem_filter.mpr ⟨listed, ?_⟩))
    exact decide_eq_true preferred
  · obtain ⟨a, chosen, below⟩ := List.mem_flatMap.mp (covered u earlier free.1)
    rcases List.mem_append.mp chosen with strong | pick
    · obtain ⟨listed, preferred⟩ := List.mem_filter.mp strong
      exact absurd below (free.2 a listed (of_decide_eq_true preferred))
    · obtain ⟨e, listed, early, ⟨inside, _, _⟩, _⟩ := made a pick
      refine ⟨e.1, ?_, ?_⟩
      · have found := List.mem_zipIdx_iff_getElem?.mp listed
        rw [whole, List.getElem?_append_left early] at found
        exact List.mem_of_getElem? found
      · obtain ⟨vertex, path⟩ := proper.linked.mem_dfs.mp inside
        exact proper.linked.mem_dfs.mpr ⟨vertex, path.trans (proper.linked.mem_dfs.mp below).2⟩

/-- No choice is in the ancestry of a pick if the searches are apart. -/
theorem Proper.pick_apart (whole : s.dag.leaves order = before ++ leaf :: rest)
    (apart : ((s.dag.leaves order).filter fun v => s.Strong v).length + 1 < p →
      s.Apart (s.dag.leaves order))
    (room : chosen.length < p) (so_far : s.Picked (s.dag.leaves order) before chosen)
    (picked : s.pick chosen (s.dag.dfs leaf) = some v) : ∀ a ∈ chosen, a ∉ s.dag.dfs v := by
  obtain ⟨comes, _⟩ := proper.pick_comesTo whole so_far picked
  obtain ⟨picks, rfl, made⟩ := so_far
  obtain ⟨member, _, fresh, free⟩ := pick_some picked
  intro a chosen below
  have other : a ≠ v := fun same => fresh (same ▸ chosen)
  rcases List.mem_append.mp chosen with strong | pick
  · -- a leaf has no descendants
    have leaf := (proper.leaf_vertex (List.mem_of_mem_filter strong)).2
    rcases Relation.ReflTransGen.cases_tail (proper.linked.mem_dfs.mp below).2 with same | edge
    · exact other same
    · obtain ⟨u, _, edge⟩ := edge
      exact leaf u edge
  · obtain ⟨e, listed, early, there, covered⟩ := made a pick
    have more : ((s.dag.leaves order).filter fun v => s.Strong v).length + 1 < p := by
      have := List.length_pos_of_mem pick
      rw [List.length_append] at room
      omega
    obtain ⟨here, prior⟩ := position whole
    have met := apart more e listed (leaf, before.length) here early a there.1 v member there
      (prior.symm ▸ comes) below other
    obtain ⟨b, chosen, above⟩ := List.mem_flatMap.mp (covered v met comes.2.1.1)
    exact free b chosen above

theorem Proper.picked_next (whole : s.dag.leaves order = before ++ leaf :: rest)
    (so_far : s.Picked (s.dag.leaves order) before chosen) :
    s.Picked (s.dag.leaves order) (before ++ [leaf])
      (chosen ++ (s.pick chosen (s.dag.dfs leaf)).toList) := by
  have comes := fun v => proper.pick_comesTo (v := v) whole so_far
  obtain ⟨picks, same, made⟩ := so_far
  refine ⟨picks ++ (s.pick chosen (s.dag.dfs leaf)).toList, by rw [same, List.append_assoc],
    fun a listed => ?_⟩
  have more : ∀ x ∈ chosen.flatMap s.dag.dfs,
      x ∈ (chosen ++ (s.pick chosen (s.dag.dfs leaf)).toList).flatMap s.dag.dfs := by
    intro x below
    rw [List.flatMap_append]
    exact List.mem_append_left _ below
  rcases List.mem_append.mp listed with old | new
  · obtain ⟨e, place, early, there, covered⟩ := made a old
    refine ⟨e, place, ?_, there, fun x met strong => more x (covered x met strong)⟩
    rw [List.length_append]
    exact Nat.lt_add_right _ early
  · obtain ⟨here, prior⟩ := position whole
    obtain ⟨comes, covered⟩ := comes a (Option.mem_toList.mp new)
    refine ⟨(leaf, before.length), here, ?_, prior.symm ▸ comes,
      fun x met strong => more x (covered x met strong)⟩
    rw [List.length_append]
    exact Nat.lt_succ_self _

end Pick

/-- The choices are unrelated if the searches are apart, or if there is one pick at most. -/
theorem Proper.unrelated {order : Listing H} {before rest chosen : List H}
    (whole : s.dag.leaves order = before ++ rest)
    (apart : ((s.dag.leaves order).filter fun v => s.Strong v).length + 1 < p →
      s.Apart (s.dag.leaves order))
    (so_far : chosen.length < p → s.Picked (s.dag.leaves order) before chosen) :
    s.Unrelated p rest chosen := by
  induction rest generalizing before chosen with
  | nil => trivial
  | cons leaf rest ih =>
    intro room
    refine ⟨fun v picked => proper.pick_apart whole apart room (so_far room) picked, ?_⟩
    have next : s.dag.leaves order = (before ++ [leaf]) ++ rest := by
      rw [whole, List.append_assoc]
      rfl
    exact ih next fun _ => proper.picked_next whole (so_far room)

end Antichain

section Samples
open Actor

/-- A second transfer of coin 0, which is not preferred. -/
def rival (parent : Tx Digest) (amount : UInt64) : Tx Digest :=
  .new [parent.hash] (pay [mint (.ofNat 0)] amount)

end Samples

end Subzero.Sleet
