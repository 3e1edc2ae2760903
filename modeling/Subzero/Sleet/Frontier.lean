import Subzero.Graph.TopologicalSort
import Subzero.Sleet.Exchange
import Subzero.Sleet.Memo
import Subzero.Sleet.Trim

/-! The accepted frontier, and what is left of the DAG when it is pruned there. The vertices
are visited along depth-first searches from the leaves. A vertex goes to the frontier unless
an accepted vertex that was visited before has it in its ancestry, so the frontier has all the
last accepted vertices, and others that were visited too early. -/
namespace Subzero.Sleet
variable {H : Type} [DecidableEq H]
variable {s : Sleet H} {v : H}

/-- The DAG is acyclic, with its inverted edges, and its vertices have conflict sets. -/
structure Proper (s : Sleet H) : Prop where
  transposed : s.dag.Transposed
  acyclic : s.dag.Acyclic
  sets : ∀ v ∈ s.dag.g, v ∈ s.conflictGraph.cs

theorem Proper.linked (proper : s.Proper) : s.dag.Linked :=
  proper.transposed.mirrored.toLinked

theorem Proper.isAccepted_eq (proper : s.Proper) (v : H) :
    s.isAccepted v = some (decide (∀ a ∈ s.dag.dfs v, s.Final a)) :=
  allAccepted_eq fun a member => proper.sets a (DAG.dfs_mem member)

theorem Proper.isAccepted_iff (proper : s.Proper) (v : H) :
    s.isAccepted v = some true ↔ s.Verdict v := by
  rw [proper.isAccepted_eq, Option.some.injEq, decide_eq_true_iff]
  rfl

/-- An accepted vertex of the list that no accepted vertex before it has in its ancestry. -/
def First (s : Sleet H) (l : List H) (v : H) : Prop :=
  s.Verdict v ∧ ∃ pre post, l = pre ++ v :: post ∧ ∀ w ∈ pre, s.Verdict w → v ∉ s.dag.dfs w

theorem first_append {l : List H} {a v : H} : s.First (l ++ [a]) v ↔
    s.First l v ∨ v = a ∧ s.Verdict a ∧ ∀ w ∈ l, s.Verdict w → a ∉ s.dag.dfs w := by
  constructor
  · rintro ⟨verdict, pre, post, split, before⟩
    rcases List.eq_nil_or_concat post with rfl | ⟨post, b, rfl⟩
    · obtain ⟨rfl, same⟩ := List.append_inj' split rfl
      cases same
      exact .inr ⟨rfl, verdict, before⟩
    · rw [List.concat_eq_append, ← List.cons_append, ← List.append_assoc] at split
      obtain ⟨rfl, _⟩ := List.append_inj' split rfl
      exact .inl ⟨verdict, pre, post, rfl, before⟩
  · rintro (⟨verdict, pre, post, rfl, before⟩ | ⟨rfl, verdict, before⟩)
    · exact ⟨verdict, pre, post ++ [a], by simp, before⟩
    · exact ⟨verdict, l, [], rfl, before⟩

/-- The frontier after a list of vertices was visited. -/
structure Visited (s : Sleet H) (l : List H) (f : Frontier H) : Prop where
  memo : s.Remembers f.memo
  above : ∀ x, x ∈ f.above ↔ ∃ w ∈ l, s.Verdict w ∧ x ∈ s.dag.dfs w
  accepted : ∀ v, v ∈ f.accepted ↔ s.First l v
  covers : ∀ x ∈ f.above, ∃ v ∈ f.accepted, x ∈ s.dag.dfs v

section Visit
variable {s : Sleet H} {l : List H} {f : Frontier H} {a : H}

/-- The ancestry of a vertex above the frontier is above it too. -/
theorem Visited.skip (proper : s.Proper) (visited : Visited s l f) (above : a ∈ f.above) :
    Visited s (l ++ [a]) f := by
  obtain ⟨w, listed, verdict, member⟩ := (visited.above a).mp above
  refine ⟨visited.memo, fun x => ?_, fun v => ?_, visited.covers⟩
  · rw [visited.above]
    constructor
    · rintro ⟨u, earlier, inside⟩
      exact ⟨u, List.mem_append_left _ earlier, inside⟩
    · rintro ⟨u, later, accepted, inside⟩
      rcases List.mem_append.mp later with earlier | here
      · exact ⟨u, earlier, accepted, inside⟩
      · cases List.mem_singleton.mp here
        exact ⟨w, listed, verdict, proper.linked.dfs_subset member inside⟩
  · rw [visited.accepted, first_append]
    refine ⟨.inl, fun either => either.resolve_right ?_⟩
    rintro ⟨_, _, before⟩
    exact before w listed verdict member

theorem Visited.accept (visited : Visited s l f) (fresh : a ∉ f.above) (accepted : s.Verdict a)
    {memo : HashMap H Bool} (remembers : s.Remembers memo) :
    Visited s (l ++ [a])
      ⟨Insert.insert a f.accepted, f.above ∪ (s.dag.dfs a).toFinset, memo⟩ := by
  refine ⟨remembers, fun x => ?_, fun v => ?_, fun x => ?_⟩
  · simp [visited.above, accepted, or_and_right, exists_or]
  · have none_before : ∀ w ∈ l, s.Verdict w → a ∉ s.dag.dfs w := fun w listed verdict member =>
      fresh ((visited.above a).mpr ⟨w, listed, verdict, member⟩)
    rw [Finset.mem_insert, visited.accepted, first_append, or_comm]
    exact or_congr_right (and_iff_left ⟨accepted, none_before⟩).symm
  · rw [Finset.mem_union, List.mem_toFinset]
    rintro (old | new)
    · obtain ⟨v, member, path⟩ := visited.covers x old
      exact ⟨v, Finset.mem_insert_of_mem member, path⟩
    · exact ⟨a, Finset.mem_insert_self a _, new⟩

theorem Visited.refuse (visited : Visited s l f) (refused : ¬ s.Verdict a)
    {memo : HashMap H Bool} (remembers : s.Remembers memo) :
    Visited s (l ++ [a]) { f with memo := memo } := by
  refine ⟨remembers, fun x => ?_, fun v => ?_, visited.covers⟩
  · simp [visited.above, refused, or_and_right, exists_or]
  · simp [first_append, visited.accepted, refused]

theorem Proper.isAcceptedMemo_total (proper : s.Proper) (a : H) (memo : HashMap H Bool) :
    ∃ res memo', s.isAcceptedMemo a memo = some (res, memo') := by
  unfold isAcceptedMemo
  split
  · exact ⟨_, _, rfl⟩
  · rw [proper.isAccepted_eq]
    exact ⟨_, _, rfl⟩

theorem Visited.visit (proper : s.Proper) (a : H) (visited : Visited s l f) :
    ∃ f', s.visitFrontier f a = some f' ∧ Visited s (l ++ [a]) f' := by
  unfold visitFrontier
  by_cases above : a ∈ f.above
  · exact ⟨f, if_pos above, visited.skip proper above⟩
  · obtain ⟨res, memo, answer⟩ := proper.isAcceptedMemo_total a f.memo
    obtain ⟨verdict, remembers⟩ := isAcceptedMemo_verdict visited.memo answer
    rw [if_neg above, answer, Option.map_some]
    refine ⟨_, rfl, ?_⟩
    cases res with
    | true => exact visited.accept above (verdict.mp rfl) remembers
    | false =>
      have refused : ¬ s.Verdict a := fun accepted => Bool.false_ne_true (verdict.mpr accepted)
      exact visited.refuse refused remembers

end Visit

theorem Proper.visitAll (proper : s.Proper) (l : List H) :
    ∃ f, l.foldlM s.visitFrontier ⟨∅, ∅, ∅⟩ = some f ∧ Visited s l f := by
  induction l using List.reverseRecOn with
  | nil =>
    refine ⟨_, rfl, ?_, ?_, ?_, ?_⟩
    · simp [Remembers]
    · simp
    · simp [First]
    · simp
  | append_singleton l a ih =>
    obtain ⟨f, rounds, visited⟩ := ih
    obtain ⟨f', round, visited'⟩ := visited.visit proper a
    exact ⟨f', foldlM_concat rounds round, visited'⟩

/-- The vertices in the order in which they are visited. -/
def traversal (s : Sleet H) (order : HashOrder H) : List H :=
  (s.dag.leaves order.hashes).flatMap s.dag.dfs

theorem Proper.mem_traversal (proper : s.Proper) (order : HashOrder H) :
    v ∈ s.traversal order ↔ v ∈ s.dag.g := by
  rw [traversal, List.mem_flatMap]
  constructor
  · rintro ⟨leaf, _, member⟩
    exact DAG.dfs_mem member
  · intro vertex
    obtain ⟨leaf, listed, path⟩ :=
      DAG.leaf_below proper.transposed.edges proper.acyclic
        (fun v => (proper.transposed.keys v).mp) order.hashes vertex
    have inside : leaf ∈ s.dag.g := by
      rw [proper.transposed.keys, ← Finmap.mem_keys]
      exact (order.hashes.mem _ _).mp (List.mem_of_mem_filter listed)
    exact ⟨leaf, listed, proper.linked.mem_dfs.mpr ⟨inside, path⟩⟩

theorem Proper.frontier (proper : s.Proper) (order : HashOrder H) :
    ∃ s', s.computeAcceptedFrontier order = some s' ∧
      s' = { s with acceptedFrontier := s'.acceptedFrontier } ∧
      (∀ v, v ∈ s'.acceptedFrontier ↔ s.First (s.traversal order) v) ∧
      ∀ v ∈ s.dag.g, s.Verdict v → ∃ f ∈ s'.acceptedFrontier, v ∈ s.dag.dfs f := by
  obtain ⟨f, rounds, visited⟩ := proper.visitAll (s.traversal order)
  refine ⟨_, Option.map_eq_some_iff.mpr ⟨f, rounds, rfl⟩, rfl, visited.accepted, ?_⟩
  intro v vertex verdict
  refine visited.covers v ((visited.above v).mpr ⟨v, ?_, verdict, ?_⟩)
  · exact (proper.mem_traversal order).mpr vertex
  · exact proper.linked.self_mem_dfs vertex

/-- Every accepted vertex with an accepted progeny comes in the list after some of it. -/
def Heralded (s : Sleet H) (l : List H) : Prop :=
  ∀ v, s.isAccepted v = some true →
    (∃ w, Relation.TransGen s.dag.Parent w v ∧ s.isAccepted w = some true) →
    ∀ pre post, l = pre ++ v :: post → v ∉ pre →
      ∃ w ∈ pre, Relation.TransGen s.dag.Parent w v ∧ s.isAccepted w = some true

theorem Proper.path_of_mem (proper : s.Proper) {w v : H} {pre : List H} (fresh : v ∉ pre)
    (before : w ∈ pre) (member : v ∈ s.dag.dfs w) : Relation.TransGen s.dag.Parent w v := by
  have path := (proper.linked.mem_dfs.mp member).2
  rcases Relation.reflTransGen_iff_eq_or_transGen.mp path with rfl | proper
  · exact absurd before fresh
  · exact proper

/-- The frontier always has the accepted vertices without an accepted progeny. It has no
others exactly if the vertices are visited in such an order that every accepted vertex with an
accepted progeny comes after some of it. -/
theorem frontier_last_accepted {s : Sleet H} (proper : s.Proper) (order : HashOrder H) :
    ∃ s', s.computeAcceptedFrontier order = some s' ∧
      ((∀ v, v ∈ s'.acceptedFrontier ↔ v ∈ s.dag.g ∧ s.isAccepted v = some true ∧
        ∀ w, Relation.TransGen s.dag.Parent w v → s.isAccepted w ≠ some true) ↔
        s.Heralded (s.traversal order)) := by
  obtain ⟨s', computed, _, frontier, _⟩ := proper.frontier order
  refine ⟨s', computed, ?_⟩
  simp only [Heralded, ne_eq, proper.isAccepted_iff, frontier]
  constructor
  · rintro exactly v verdict ⟨w, path, accepted⟩ pre post split fresh
    by_contra none
    have first : s.First (s.traversal order) v := by
      refine ⟨verdict, pre, post, split, fun u before other member => none ?_⟩
      exact ⟨u, before, proper.path_of_mem fresh before member, other⟩
    exact ((exactly v).mp first).2.2 w path accepted
  · intro heralded v
    constructor
    · rintro ⟨verdict, pre, post, split, before⟩
      have vertex : v ∈ s.dag.g := (proper.mem_traversal order).mp (by simp [split])
      have self := proper.linked.self_mem_dfs vertex
      refine ⟨vertex, verdict, fun w path accepted => ?_⟩
      obtain ⟨u, earlier, path', accepted'⟩ := heralded v verdict ⟨w, path, accepted⟩ pre post
        split fun early => before v early verdict self
      have inside : u ∈ s.dag.g := (proper.mem_traversal order).mp (by simp [split, earlier])
      exact before u earlier accepted' (proper.linked.mem_dfs.mpr ⟨inside, path'.to_reflTransGen⟩)
    · rintro ⟨vertex, verdict, last⟩
      obtain ⟨pre, post, split, fresh⟩ :=
        List.eq_append_cons_of_mem ((proper.mem_traversal order).mpr vertex)
      refine ⟨verdict, pre, post, split, fun u before accepted member => ?_⟩
      exact last u (proper.path_of_mem fresh before member) accepted

section Runs
open Actor

/-- `v` and its child `w` are accepted, and another child `u` of `v` is not. The leaves are `u`
and the children of `w`. -/
def early : List (Event Digest) :=
  let v := transfer [] 0
  let w := transfer [v] 2
  let leaf (i : Nat) : Tx Digest := transfer [w] i
  [joins 13] ++ poll 1 true [v] ++ [receive (transfer [v] 1)] ++
    poll 4 true (w :: (List.range 9).map fun i => leaf (i + 3)) ++ [.deliver 14] ++
    poll 14 true [leaf 12]

theorem proper_sample {steps : List (Actor Digest × HashOrder Digest × Event Digest)}
    {x : Actor Digest} (run : Run step Actor.sample steps x)
    (facts : x.sleet.dag.Transposed ∧
      ∀ v ∈ x.sleet.dag.g.keys, v ∈ x.sleet.conflictGraph.cs) : x.sleet.Proper :=
  ⟨facts.1, acyclic_run run, fun v vertex => facts.2 v (Finmap.mem_keys.mpr vertex)⟩

/-- The search from `u` comes first and finds `v`, the search from a child of `w` then finds
`w`: both go to the frontier. -/
theorem frontier_early :
    ∃ steps x, Run step Actor.sample steps x ∧ x.sleet.Proper ∧ ∃ s',
      x.sleet.computeAcceptedFrontier ascendingOrder = some s' ∧
      (transfer [] 0).hash ∈ s'.acceptedFrontier ∧
      x.sleet.dag.Parent (transfer [transfer [] 0] 2).hash (transfer [] 0).hash ∧
      x.sleet.isAccepted (transfer [transfer [] 0] 2).hash = some true := by
  have found : (runSample early).any fun r => decide ((r.2.sleet.dag.Transposed ∧
        ∀ v ∈ r.2.sleet.dag.g.keys, v ∈ r.2.sleet.conflictGraph.cs) ∧
      (r.2.sleet.computeAcceptedFrontier ascendingOrder).any (fun s' =>
        decide ((transfer [] 0).hash ∈ s'.acceptedFrontier)) ∧
      (transfer [] 0).hash ∈ r.2.sleet.dag.parents (transfer [transfer [] 0] 2).hash ∧
      r.2.sleet.isAccepted (transfer [transfer [] 0] 2).hash = some true) := by
    decide +kernel
  obtain ⟨steps, x, run, facts⟩ := exec_any found
  obtain ⟨proper, computed, edge, accepted⟩ := of_decide_eq_true facts
  obtain ⟨s', done, member⟩ := (Option.any_eq_true _ _).mp computed
  exact ⟨steps, x, run, proper_sample run proper, s', done, of_decide_eq_true member,
    DAG.mem_parents.mp edge, accepted⟩

end Runs

def elder : Tx Digest := Actor.transfer [] 1

def younger : Tx Digest := Actor.transfer [elder] 2

theorem ripePair_proper : (ripePair elder younger).Proper where
  transposed := by decide +kernel
  acyclic := by
    have all : ∀ v ∈ (ripePair elder younger).dag.g.keys,
        ∀ p ∈ (ripePair elder younger).dag.parents v, p = elder.hash ∧ v ≠ elder.hash := by
      decide +kernel
    refine .of_rank (fun v => if v = elder.hash then 0 else 1) fun v p edge => ?_
    obtain ⟨low, high⟩ := all v (Finmap.mem_keys.mpr edge.mem) p (DAG.mem_parents.mpr edge)
    simp [low, high]
  sets v vertex := by
    have all : ∀ v ∈ (ripePair elder younger).dag.g.keys,
        v ∈ (ripePair elder younger).conflictGraph.cs := by
      decide +kernel
    exact all v (Finmap.mem_keys.mpr vertex)

/-- The child is visited before its parent, and the frontier is the child alone. -/
theorem frontier_last_accepted_pair :
    ∃ s', (ripePair elder younger).computeAcceptedFrontier ascendingOrder = some s' ∧
      ∀ v, v ∈ s'.acceptedFrontier ↔ v ∈ (ripePair elder younger).dag.g ∧
        (ripePair elder younger).isAccepted v = some true ∧
        ∀ w, Relation.TransGen (ripePair elder younger).dag.Parent w v →
          (ripePair elder younger).isAccepted w ≠ some true := by
  have visits : (ripePair elder younger).traversal ascendingOrder =
      [younger.hash, elder.hash] := by
    decide +kernel
  have edge : elder.hash ∈ (ripePair elder younger).dag.parents younger.hash ∧
      (ripePair elder younger).isAccepted younger.hash = some true := by
    decide +kernel
  have childless : ∀ v ∈ (ripePair elder younger).dag.g.keys,
      younger.hash ∉ (ripePair elder younger).dag.parents v := by
    decide +kernel
  obtain ⟨s', computed, exactly⟩ := frontier_last_accepted ripePair_proper ascendingOrder
  refine ⟨s', computed, exactly.mpr ?_⟩
  rintro v _ ⟨w, path, _⟩ pre post split fresh
  rw [visits] at split
  cases pre with
  | nil =>
    obtain ⟨rfl, _⟩ := List.cons.inj split
    obtain ⟨u, _, last⟩ := Relation.TransGen.tail'_iff.mp path
    exact absurd (DAG.mem_parents.mpr last) (childless u (Finmap.mem_keys.mpr last.mem))
  | cons first pre =>
    obtain ⟨rfl, rest⟩ := List.cons.inj split
    have v_eq : v = elder.hash := by
      have listed : v ∈ [elder.hash] := by simp [rest]
      exact List.mem_singleton.mp listed
    subst v_eq
    exact ⟨younger.hash, List.mem_cons_self, .single (DAG.mem_parents.mp edge.1), edge.2⟩

/-- What is pruned is above the frontier and not in it. -/
theorem Proper.prune (proper : s.Proper) (order : HashOrder H) :
    ∃ s' W, s.pruneAtAcceptedFrontier order = some s' ∧ s.dag.Cut W s'.dag ∧
      (∀ v, s'.Final v ↔ s.Final v) ∧ s'.conflictGraph = s.conflictGraph ∧
      (∀ f ∈ s'.acceptedFrontier, s.Verdict f) ∧
      (∀ v ∈ s.dag.g, s.Verdict v → ∃ f ∈ s'.acceptedFrontier, v ∈ s.dag.dfs f) ∧
      ∀ v, v ∈ W ↔ (∃ f ∈ s'.acceptedFrontier, v ∈ s.dag.dfs f) ∧ v ∉ s'.acceptedFrontier := by
  obtain ⟨s₁, computed, same, frontier, covers⟩ := proper.frontier order
  have dag : s₁.dag = s.dag := by rw [same]
  let pruned := (order.hashes.list (s₁.acceptedFrontier.biUnion fun f =>
    (s₁.dag.dfs f).toFinset)).filter (· ∉ s₁.acceptedFrontier)
  obtain ⟨d, eq, _, _⟩ := dropAll_dag pruned s₁
  obtain ⟨cut, _⟩ := @dropAll_cut _ _ pruned s₁ (dag ▸ proper.transposed)
  rw [eq, dag] at cut
  refine ⟨{ s₁ with dag := d }, pruned.toFinset, ?_, cut, fun v => ?_, by rw [same], ?_, covers, ?_⟩
  · rw [pruneAtAcceptedFrontier, computed]
    exact congrArg some eq
  · rw [same]
    rfl
  · exact fun f member => ((frontier f).mp member).1
  · intro v
    simp [pruned, dag, order.hashes.mem]

section Pruned
variable {s s' : Sleet H} {W : Finset H} (proper : s.Proper) (cut : s.dag.Cut W s'.dag)
include proper cut

theorem Proper.trimmed (sets : s'.conflictGraph = s.conflictGraph) : s'.Proper where
  transposed := cut.transposed proper.transposed
  acyclic := proper.acyclic.of_parent fun _ _ edge => (cut.parent.mp edge).1
  sets v member := by
    rw [sets]
    exact proper.sets v (cut.g.mem.mp member).1

/-- A path from a vertex that stays stays, or leads above the frontier. -/
theorem Proper.path_cut {frontier : Finset H}
    (above : ∀ v ∈ W, ∃ f ∈ frontier, v ∈ s.dag.dfs f) {v a : H} (stays : v ∉ W)
    (path : s.dag.Ancestor v a) :
    (a ∉ W ∧ s'.dag.Ancestor v a) ∨ ∃ f ∈ frontier, a ∈ s.dag.dfs f := by
  induction path with
  | refl => exact .inl ⟨stays, .refl⟩
  | @tail b c _ edge ih =>
    rcases ih with ⟨kept, path⟩ | ⟨f, member, inside⟩
    · by_cases gone : c ∈ W
      · exact .inr (above c gone)
      · exact .inl ⟨gone, path.tail (cut.parent.mpr ⟨edge, kept, gone⟩)⟩
    · obtain ⟨vertex, path⟩ := proper.linked.mem_dfs.mp inside
      exact .inr ⟨f, member, proper.linked.mem_dfs.mpr ⟨vertex, path.tail edge⟩⟩

/-- What is above the frontier is final, so nothing that counts is missing. -/
theorem Proper.verdict_cut {frontier : Finset H} (final : ∀ v, s'.Final v ↔ s.Final v)
    (accepted : ∀ f ∈ frontier, s.Verdict f) (above : ∀ v ∈ W, ∃ f ∈ frontier, v ∈ s.dag.dfs f)
    (linked : s'.dag.Linked) (stays : v ∈ s'.dag.g) : s'.Verdict v ↔ s.Verdict v := by
  obtain ⟨vertex, outside⟩ := cut.g.mem.mp stays
  constructor
  · intro verdict a member
    rcases proper.path_cut cut above outside (proper.linked.mem_dfs.mp member).2 with
      ⟨_, path⟩ | ⟨f, listed, inside⟩
    · exact (final a).mp (verdict a (linked.mem_dfs.mpr ⟨stays, path⟩))
    · exact accepted f listed a inside
  · intro verdict a member
    have path : s.dag.Ancestor v a := Relation.ReflTransGen.mono
      (fun _ _ edge => (cut.parent.mp edge).1) v a (linked.mem_dfs.mp member).2
    exact (final a).mpr (verdict a (proper.linked.mem_dfs.mpr ⟨vertex, path⟩))

end Pruned

/-- Pruning takes out final transactions only. Of the accepted vertices it leaves those of the
frontier; the verdicts on what is left and the edges between them stay as they were. -/
theorem prune_keeps_frontier {s : Sleet H} (proper : s.Proper) (order : HashOrder H) :
    ∃ s', s.pruneAtAcceptedFrontier order = some s' ∧
      (∀ v ∈ s.dag.g, v ∉ s'.dag.g → s.isAcceptedTx v = some true) ∧
      (∀ v ∈ s'.dag.g, s'.isAccepted v = some true → v ∈ s'.acceptedFrontier) ∧
      (∀ v ∈ s'.dag.g, v ∈ s.dag.g ∧ s'.isAccepted v = s.isAccepted v) ∧
      (∀ v ∈ s'.dag.g, ∀ p ∈ s'.dag.g,
        (s'.dag.parents v).count p = (s.dag.parents v).count p ∧
        (s'.dag.children p).count v = (s.dag.children p).count v) ∧
      s'.dag.Transposed := by
  obtain ⟨s', W, pruned, cut, final, sets, accepted, covers, exactly⟩ := proper.prune order
  have proper' := proper.trimmed cut sets
  have above : ∀ v ∈ W, ∃ f ∈ s'.acceptedFrontier, v ∈ s.dag.dfs f := fun v gone =>
    ((exactly v).mp gone).1
  have verdict : ∀ v ∈ s'.dag.g, (s'.Verdict v ↔ s.Verdict v) := fun v stays =>
    proper.verdict_cut cut final accepted above proper'.linked stays
  refine ⟨s', pruned, fun v vertex gone => ?_, fun v stays yes => ?_, fun v stays => ?_,
    fun v stays p stays' => ?_, proper'.transposed⟩
  · have removed : v ∈ W := by
      by_contra kept
      exact gone (cut.g.mem.mpr ⟨vertex, kept⟩)
    obtain ⟨f, listed, inside⟩ := above v removed
    rw [isAcceptedTx_eq (proper.sets v vertex), decide_eq_true (accepted f listed v inside)]
  · obtain ⟨vertex, kept⟩ := cut.g.mem.mp stays
    have yes := (verdict v stays).mp ((proper'.isAccepted_iff v).mp yes)
    by_contra other
    exact kept ((exactly v).mpr ⟨covers v vertex yes, other⟩)
  · refine ⟨(cut.g.mem.mp stays).1, ?_⟩
    rw [proper'.isAccepted_eq, proper.isAccepted_eq, Option.some.injEq, decide_eq_decide]
    exact verdict v stays
  · have kept := (cut.g.mem.mp stays).2
    have kept' := (cut.g.mem.mp stays').2
    unfold DAG.parents DAG.children
    rw [cut.g.count, cut.inv.count, if_neg (by simp [kept, kept']), if_neg (by simp [kept, kept'])]
    exact ⟨rfl, rfl⟩

theorem prune_keeps_frontier_pair :
    ∃ s', (ripePair elder younger).pruneAtAcceptedFrontier ascendingOrder = some s' ∧
      elder.hash ∉ s'.dag.g ∧ (ripePair elder younger).isAcceptedTx elder.hash = some true := by
  have found : ((ripePair elder younger).pruneAtAcceptedFrontier ascendingOrder).any
      (fun s' => decide (elder.hash ∉ s'.dag.g)) ∧ elder.hash ∈ (ripePair elder younger).dag.g := by
    decide +kernel
  obtain ⟨s', pruned, final, _⟩ := prune_keeps_frontier ripePair_proper ascendingOrder
  obtain ⟨gone, vertex⟩ := found
  rw [pruned] at gone
  have gone : elder.hash ∉ s'.dag.g := of_decide_eq_true gone
  exact ⟨s', pruned, gone, final elder.hash vertex gone⟩

end Subzero.Sleet
