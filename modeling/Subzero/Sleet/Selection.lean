import Subzero.Sleet.Sleet

/-! The loops of the parent selection. Where the preference of every ancestry is known the
first loop takes strongly preferred leaves, and the second one takes for every leaf the first
strongly preferred vertex of its ancestry that no chosen parent has in its own. -/
namespace Subzero.Sleet
variable {H : Type} [DecidableEq H]

/-- The ancestry of the vertex is preferred. -/
def Strong (s : Sleet H) (v : H) : Prop := s.isStronglyPreferred v = .ok true

instance (s : Sleet H) (v : H) : Decidable (s.Strong v) :=
  inferInstanceAs (Decidable (s.isStronglyPreferred v = .ok true))

theorem allPreferred_ok {cg : ConflictGraph H} {l : List H} (known : ∀ a ∈ l, a ∈ cg.cs) :
    ∃ b, allPreferred cg l = .ok b := by
  induction l with
  | nil => exact ⟨true, rfl⟩
  | cons a l ih =>
    obtain ⟨here, rest⟩ := List.forall_mem_cons.mp known
    obtain ⟨set, found⟩ := Finmap.mem_iff.mp here
    have answer : cg.isPreferred a = .ok (set.isPreferred a) := by
      rw [ConflictGraph.isPreferred, found]
    rw [allPreferred, answer]
    cases set.isPreferred a with
    | false => exact ⟨false, rfl⟩
    | true => exact ih rest

/-- The first vertex of a list that the second loop can take. -/
def pick (s : Sleet H) (chosen l : List H) : Option H :=
  l.find? fun v => decide (s.Strong v ∧ v ∉ chosen ∧ v ∉ chosen.flatMap s.dag.dfs)

/-- The second loop. -/
def choose (s : Sleet H) (p : Nat) : List H → List H → List H
  | [], chosen => chosen
  | leaf :: rest, chosen =>
    if p ≤ chosen.length then chosen
    else choose s p rest (chosen ++ (s.pick chosen (s.dag.dfs leaf)).toList)

theorem pick_cons {s : Sleet H} {chosen l : List H} {v : H} : s.pick chosen (v :: l) =
    if s.Strong v ∧ v ∉ chosen ∧ v ∉ chosen.flatMap s.dag.dfs then some v
    else s.pick chosen l := by
  rw [pick, List.find?_cons]
  split
  · rename_i takes
    rw [if_pos (of_decide_eq_true takes)]
  · rename_i passes
    rw [if_neg (of_decide_eq_false passes)]
    rfl

theorem choose_full {s : Sleet H} {p : Nat} {chosen : List H} (enough : p ≤ chosen.length)
    (leaves : List H) : s.choose p leaves chosen = chosen := by
  cases leaves with
  | nil => rfl
  | cons leaf leaves => exact if_pos enough

theorem selectAncestor_full {s : Sleet H} {p : Nat} {parents : List H}
    (enough : p ≤ parents.length) (l accessible : List H) :
    ∃ b, selectAncestor s p l parents accessible = .ok (b, parents, accessible) := by
  cases l with
  | nil => exact ⟨false, rfl⟩
  | cons v l => exact ⟨true, if_pos enough⟩

section Loops
variable {s : Sleet H} (decided : ∀ v, ∃ b, s.isStronglyPreferred v = .ok b) {p : Nat}
include decided

theorem isStronglyPreferred_eq (v : H) : s.isStronglyPreferred v = .ok (decide (s.Strong v)) := by
  obtain ⟨b, answer⟩ := decided v
  cases b <;> simp [Strong, answer]

theorem selectLeaves_eq (leaves parents accessible : List H) :
    selectLeaves s p leaves parents accessible =
      let more := (leaves.filter fun v => s.Strong v).take (p - parents.length)
      .ok (parents ++ more, accessible ++ more.flatMap s.dag.dfs) := by
  induction leaves generalizing parents accessible with
  | nil => simp [selectLeaves]
  | cons leaf leaves ih =>
    rw [selectLeaves]
    by_cases enough : p ≤ parents.length
    · simp [enough]
    · have short : p - parents.length = p - (parents ++ [leaf]).length + 1 := by
        rw [List.length_append, List.length_singleton]
        omega
      rw [if_neg enough, isStronglyPreferred_eq decided]
      by_cases strong : s.Strong leaf
      · simp only [strong, decide_true, ih, List.filter_cons_of_pos, short, List.take_succ_cons,
          List.flatMap_cons, List.append_assoc, List.singleton_append]
      · simp only [strong, decide_false, ih, Bool.false_eq_true, not_false_eq_true,
          List.filter_cons_of_neg]

theorem selectAncestor_eq (l parents : List H) (room : parents.length < p) :
    selectAncestor s p l parents (parents.flatMap s.dag.dfs) =
      let chosen := parents ++ (s.pick parents l).toList
      .ok (false, chosen, chosen.flatMap s.dag.dfs) := by
  induction l with
  | nil => simp [selectAncestor, pick]
  | cons v l ih =>
    rw [selectAncestor, if_neg (Nat.not_le.mpr room), isStronglyPreferred_eq decided]
    rw [pick_cons]
    by_cases takes : s.Strong v ∧ v ∉ parents ∧ v ∉ parents.flatMap s.dag.dfs
    · simp only [decide_eq_true_eq, if_pos takes, Option.toList_some, List.flatMap_append,
        List.flatMap_singleton]
    · simp only [decide_eq_true_eq, if_neg takes]
      exact ih

theorem selectAncestors_eq (leaves parents : List H) :
    selectAncestors s p leaves parents (parents.flatMap s.dag.dfs) =
      .ok (s.choose p leaves parents) := by
  induction leaves generalizing parents with
  | nil => rfl
  | cons leaf leaves ih =>
    rw [selectAncestors]
    by_cases enough : p ≤ parents.length
    · obtain ⟨ended, same⟩ := selectAncestor_full enough (s.dag.dfs leaf)
        (parents.flatMap s.dag.dfs)
      rw [same, choose_full enough]
      cases ended with
      | true => rfl
      | false =>
        have rest := ih parents
        rwa [choose_full enough] at rest
    · rw [choose, if_neg enough, selectAncestor_eq decided _ _ (Nat.not_le.mp enough)]
      exact ih _

theorem selectParents_ok (p : Nat) (order : HashOrder H) :
    ∃ r, s.selectParents order p = .ok r := by
  unfold selectParents
  split
  · exact ⟨_, rfl⟩
  · simp only [selectLeaves_eq decided, List.nil_append]
    exact ⟨_, selectAncestors_eq decided _ _⟩

end Loops

end Subzero.Sleet
