import Subzero.Graph.Conviction
import Subzero.Graph.TopologicalSort

/-! What the traversals return in a DAG that was built by calls which all return. The
topological order has every vertex once where no parent is named twice and no vertex is its
own parent. The conviction is the number of chits in the progeny whatever the parents are. -/
namespace Subzero.DAG
variable {V : Type} [DecidableEq V]
variable {d d' : DAG V}

/-- An insertion names every parent once, and not its own vertex. -/
def Plain : Mutation V → Prop
  | .insertVx vx edges => edges.Nodup ∧ vx ∉ edges
  | _ => True

/-- A chit that is set is 0 or 1. -/
def SetsBit : Mutation V → Prop
  | .setChit _ chit => chit ≤ 1
  | _ => True

instance (m : Mutation V) : Decidable (Plain m) :=
  match m with
  | .insertVx _ _ => inferInstanceAs (Decidable (_ ∧ _))
  | .removeVx _ => .isTrue trivial
  | .setChit _ _ => .isTrue trivial

instance (m : Mutation V) : Decidable (SetsBit m) :=
  match m with
  | .insertVx _ _ => .isTrue trivial
  | .removeVx _ => .isTrue trivial
  | .setChit _ chit => inferInstanceAs (Decidable (chit ≤ 1))

/-- An acyclic DAG without repeated edges. -/
structure Simple (d : DAG V) : Prop where
  rep : Representation d
  acyclic : Acyclic d
  once : ∀ v, (d.parents v).Nodup

theorem Simple.new : Simple (DAG.new : DAG V) where
  rep := .new
  acyclic := .of_rank (fun _ => 0) fun _ _ edge => absurd edge.mem Finmap.notMem_empty
  once _ := List.nodup_nil

theorem Simple.children_nodup (simple : Simple d) (p : V) : (d.children p).Nodup := by
  refine List.nodup_iff_count_le_one.mpr fun v => ?_
  rw [← simple.rep.count]
  exact List.nodup_iff_count_le_one.mp (simple.once v) p

/-- A new vertex has only vertices for parents that were there before it. -/
theorem Simple.inserted {vx : V} {edges : List V} {u : Unit} (simple : Simple d)
    (plain : Plain (.insertVx vx edges)) (done : d.insertVx vx edges = .ok u d') : Simple d' := by
  have ins := insertVx_inserted done
  have transposed := simple.rep.transposed
  have inside : ∀ e ∈ edges, e ∈ d.g := by
    intro e listed
    refine (transposed.mem_withEntry.mp (ins.entries e listed)).resolve_left ?_
    rintro rfl
    exact plain.2 listed
  refine ⟨ins.representation simple.rep, ?_, fun v => ?_⟩
  · exact simple.acyclic.insertVx transposed.mirrored.toLinked inside
      (congrArg Outcome.state? done)
  · rw [ins.parents]
    split
    · exact plain.1
    · exact simple.once v

theorem Cut.simple {R : Finset V} (simple : Simple d) (cut : Cut R d d')
    (chits : d'.chits = d.chits) : Simple d' := by
  refine ⟨cut.representation simple.rep chits, ?_, fun v => ?_⟩
  · exact simple.acyclic.of_parent fun v p edge => (cut.parent.mp edge).1
  · refine List.nodup_iff_count_le_one.mpr fun p => ?_
    rw [parents, cut.g.count]
    split
    · exact Nat.zero_le 1
    · exact List.nodup_iff_count_le_one.mp (simple.once v) p

theorem Simple.mutate {m : Mutation V} (simple : Simple d) (plain : Plain m)
    (taken : d.mutateOk m = some d') : Simple d' := by
  have rep := simple.rep.mutate taken
  obtain ⟨⟨u, d₁⟩, unwrapped, rfl⟩ := Option.map_eq_some_iff.mp taken
  have done := Outcome.unwrap_eq_some.mp unwrapped
  cases m with
  | insertVx vx edges => exact simple.inserted plain done
  | removeVx vx =>
    obtain ⟨returned, d₂, removed, same⟩ := Outcome.bind_eq_ok.mp done
    cases same
    obtain ⟨_, cut, chits⟩ := removeVx_returns simple.rep.transposed removed
    exact cut.simple simple chits
  | setChit vx chit =>
    obtain ⟨_, rfl⟩ := setChit_ok.mp done
    exact ⟨rep, simple.acyclic, simple.once⟩

/-- The sort lists every vertex once, with fuel for one round per vertex. -/
theorem Simple.topologicalSort (simple : Simple d) (order : Listing V) :
    ∃ sorted, (∀ fuel, d.g.keys.card ≤ fuel → d.topologicalSort fuel order = some sorted) ∧
      sorted.Nodup ∧ (∀ v, v ∈ sorted ↔ v ∈ d.g) ∧ Kahn.Ordered d.Parent [] sorted := by
  have transposed := simple.rep.transposed
  have linked := transposed.mirrored.toLinked
  obtain ⟨n, sorted, done⟩ := topologicalSort_total transposed simple.acyclic order
  have midway : Kahn.Midway d.g [] (d.invert.leaves order) d.g :=
    .start fun v leaf => mem_leaves_invert.mp leaf
  have rounds := Kahn.sort_sorts done
  have queued : Kahn.Once d.g [] (d.invert.leaves order) := by
    refine ⟨?_, by simp⟩
    rw [List.append_nil]
    exact (order.nodup _).filter _
  have nodup : (sorted ++ []).Nodup := by
    refine Kahn.Sorts.nodup (fun v children found => ⟨?_, fun c listed => ?_⟩) midway queued rounds
    · have once := simple.children_nodup v
      rw [DAG.children, show d.inv.lookup v = some children from found] at once
      exact once
    · exact (transposed.edges c v).mpr ⟨children, found, listed⟩
  rw [List.append_nil] at nodup
  have vertices : ∀ v, v ∈ sorted ↔ v ∈ d.g := fun v =>
    ⟨fun listed => (transposed.keys v).mpr (rounds.entry v listed),
      topologicalSort_complete linked simple.acyclic done⟩
  have size : sorted.length = d.g.keys.card := by
    rw [← List.toFinset_card_of_nodup nodup]
    congr 1
    ext v
    rw [List.mem_toFinset, vertices, Finmap.mem_keys]
  refine ⟨sorted, fun fuel enough => ?_, nodup, vertices, topologicalSort_ordered done⟩
  exact rounds.fuel (size ▸ enough)

theorem dfs_absent {v : V} (absent : v ∉ d.g) : d.dfs v = [] := by
  rw [dfs, walk_absent _ _ _ _ _ (Finmap.lookup_eq_none.mpr absent)]

/-- After any calls that return, with every parent named once, the sort and the ancestors are
found with fuel for one round per vertex: the vertices and the proper ancestors, each once
and after its own parents. -/
theorem getAncestors_listing {steps : List (DAG V × Mutation V)} {d : DAG V}
    (run : Run mutateOk new steps d) (plain : Meets (fun _ m => Plain m) steps)
    (order : Listing V) {fuel : Nat} (enough : d.g.keys.card ≤ fuel) :
    (∃ sorted, d.topologicalSort fuel order = some sorted ∧ sorted.Nodup ∧
      (∀ v, v ∈ sorted ↔ v ∈ d.g) ∧ Kahn.Ordered d.Parent [] sorted) ∧
    ∀ v, ∃ ancestors, d.getAncestors fuel order v = some ancestors ∧ ancestors.Nodup ∧
      (∀ a, a ∈ ancestors ↔ Relation.TransGen d.Parent v a) ∧
      Kahn.Ordered d.Parent [] ancestors ∧ (v ∉ d.g → ancestors = []) := by
  have simple : Simple d := run.invariant _ plain Simple .new fun _ _ _ simple plain taken =>
    simple.mutate plain taken
  have linked := simple.rep.transposed.mirrored.toLinked
  obtain ⟨sorted, done, nodup, vertices, ordered⟩ := simple.topologicalSort order
  refine ⟨⟨sorted, done fuel enough, nodup, vertices, ordered⟩, fun v => ?_⟩
  have answered : d.getAncestors fuel order v =
      some (sorted.filter fun e => e ∈ (d.dfs v).toFinset.erase v) := by
    rw [getAncestors, done fuel enough, Option.map_some]
  refine ⟨_, answered, nodup.filter _, ?_⟩
  by_cases vertex : v ∈ d.g
  · refine ⟨fun a => ?_, getAncestors_ordered linked simple.acyclic vertex answered,
      absurd vertex⟩
    rw [mem_getAncestors linked simple.acyclic vertex answered, Ancestor,
      Relation.reflTransGen_iff_eq_or_transGen]
    constructor
    · rintro ⟨other, same | path⟩
      · exact absurd same other
      · exact path
    · intro path
      refine ⟨?_, .inr path⟩
      rintro rfl
      exact simple.acyclic a path
  · have none : (sorted.filter fun e => e ∈ (d.dfs v).toFinset.erase v) = [] := by
      simp [dfs_absent vertex]
    rw [none]
    refine ⟨fun a => ⟨fun listed => absurd listed List.not_mem_nil, fun path => ?_⟩, trivial,
      fun _ => rfl⟩
    obtain ⟨u, edge, _⟩ := Relation.TransGen.head'_iff.mp path
    exact absurd edge.mem vertex

/-- A vertex goes out and comes back below another one. -/
theorem getAncestors_listing_again :
    ∃ steps d, Run mutateOk (new : DAG Nat) steps d ∧
      steps.map Prod.snd = [.insertVx 0 [], .insertVx 1 [0], .insertVx 2 [1, 0], .removeVx 1,
        .insertVx 1 [0, 2]] ∧
      ∀ order, ∃ ancestors, d.getAncestors d.g.keys.card order 1 = some ancestors ∧
        ∀ a, a ∈ ancestors ↔ Relation.TransGen d.Parent 1 a := by
  have found : (exec mutateOk (new : DAG Nat) [.insertVx 0 [], .insertVx 1 [0],
      .insertVx 2 [1, 0], .removeVx 1, .insertVx 1 [0, 2]]).any fun r =>
      decide (r.1.map Prod.snd = [.insertVx 0 [], .insertVx 1 [0], .insertVx 2 [1, 0],
        .removeVx 1, .insertVx 1 [0, 2]] ∧ ∀ x ∈ r.1, Plain x.2) := by
    decide +kernel
  obtain ⟨steps, d, run, facts⟩ := exec_any found
  obtain ⟨events, plain⟩ := of_decide_eq_true facts
  refine ⟨steps, d, run, events, fun order => ?_⟩
  obtain ⟨ancestors, answered, _, exactly, _⟩ :=
    (getAncestors_listing run plain order le_rfl).2 1
  exact ⟨ancestors, answered, exactly⟩

theorem mutate_bits {m : Mutation V} (bit : SetsBit m)
    (bits : ∀ v c, d.chits.lookup v = some c → c ≤ 1) (taken : d.mutateOk m = some d') :
    ∀ v c, d'.chits.lookup v = some c → c ≤ 1 := by
  obtain ⟨⟨u, d₁⟩, unwrapped, rfl⟩ := Option.map_eq_some_iff.mp taken
  have done := Outcome.unwrap_eq_some.mp unwrapped
  have written : ∀ vx chit, chit ≤ 1 →
      ∀ v c, (d.chits.insert vx chit).lookup v = some c → c ≤ 1 := by
    intro vx chit small v c found
    rcases HashMap.lookup_insert_some found with ⟨_, rfl⟩ | ⟨_, old⟩
    · exact small
    · exact bits v c old
  cases m with
  | insertVx vx edges =>
    rw [(insertVx_inserted done).chits]
    exact written vx 0 (Nat.zero_le 1)
  | removeVx vx =>
    obtain ⟨returned, d₂, removed, same⟩ := Outcome.bind_eq_ok.mp done
    cases same
    rw [show d₁.chits = d.chits from (removeVx_cases (congrArg Outcome.state? removed)).1]
    exact bits
  | setChit vx chit =>
    obtain ⟨_, rfl⟩ := setChit_ok.mp done
    exact written vx chit bit

/-- Where chits are bits, the weight is the number of those that are set. -/
theorem weight_card (bits : ∀ v c, d.chits.lookup v = some c → c ≤ 1) (v : V) :
    d.weight v = ((d.progeny v).filter fun x => d.chits.lookup x = some 1).card := by
  rw [weight, Finset.card_filter]
  refine Finset.sum_congr rfl fun x _ => ?_
  rw [chitOf]
  cases found : d.chits.lookup x with
  | none => simp
  | some c =>
    have bit := bits x c found
    simp only [Option.getD_some, Option.some.injEq]
    split <;> omega

/-- After any calls that return the conviction of a vertex is the number of the chits that
are set in its progeny, and an overflow if that does not fit in a `u8`. The traversal ends
by itself, and every vertex that it reaches has a chit and a list of children. -/
theorem conviction_counts {steps : List (DAG V × Mutation V)} {d : DAG V}
    (run : Run mutateOk new steps d) (bits : Meets (fun _ m => SetsBit m) steps) {v : V}
    (vertex : v ∈ d.g) :
    (∃ chits : Finset V,
      (∀ x, x ∈ chits ↔ Relation.ReflTransGen d.Child v x ∧ d.chits.lookup x = some 1) ∧
      d.conviction v =
        some (if chits.card ≤ 255 then .ok chits.card else .error .chitOverflow)) ∧
    (∀ x, Relation.ReflTransGen d.Child v x → x ∈ d.chits ∧ x ∈ d.inv) ∧
    ∀ more, walk d.inv.lookup pushQueue (d.inv.keys.card + 1 + more) [v] {v} =
      walk d.inv.lookup pushQueue (d.inv.keys.card + 1) [v] {v} := by
  obtain ⟨rep, small⟩ := run.invariant _ bits
    (fun d => Representation d ∧ ∀ v c, d.chits.lookup v = some c → c ≤ 1) ⟨.new, by simp [new]⟩
    fun _ _ _ kept bit taken => ⟨kept.1.mutate taken, mutate_bits bit kept.2 taken⟩
  have mirrored := rep.transposed.mirrored
  have entry := mirrored.entry v vertex
  have known : ∀ x ∈ d.progeny v, x ∈ d.chits := fun x member =>
    rep.chit x (mirrored.progeny_mem vertex member)
  refine ⟨⟨(d.progeny v).filter fun x => d.chits.lookup x = some 1, fun x => ?_, ?_⟩,
    fun x path => ?_, fun more => (iterators_fuel d v more).2⟩
  · rw [Finset.mem_filter, mirrored.mem_progeny entry]
  · rw [mirrored.conviction_eq entry known, weight_card small]
    simp only [Nat.lt_succ_iff, Nat.reducePow]
  · have member := (mirrored.mem_progeny entry).mpr path
    exact ⟨known x member, mirrored.entry x (mirrored.progeny_mem vertex member)⟩

/-- A vertex with two paths to it and a repeated parent. -/
theorem conviction_counts_diamond :
    ∃ steps d, Run mutateOk (new : DAG Nat) steps d ∧
      steps.map Prod.snd = [.insertVx 0 [], .insertVx 1 [0, 0], .insertVx 2 [0],
        .insertVx 3 [1, 2], .setChit 3 1, .setChit 1 1, .setChit 2 0] ∧
      ∃ chits : Finset Nat,
        (∀ x, x ∈ chits ↔ Relation.ReflTransGen d.Child 0 x ∧ d.chits.lookup x = some 1) ∧
        d.conviction 0 =
          some (if chits.card ≤ 255 then .ok chits.card else .error .chitOverflow) := by
  have found : (exec mutateOk (new : DAG Nat) [.insertVx 0 [], .insertVx 1 [0, 0],
      .insertVx 2 [0], .insertVx 3 [1, 2], .setChit 3 1, .setChit 1 1, .setChit 2 0]).any fun r =>
      decide (r.1.map Prod.snd = [.insertVx 0 [], .insertVx 1 [0, 0], .insertVx 2 [0],
        .insertVx 3 [1, 2], .setChit 3 1, .setChit 1 1, .setChit 2 0] ∧
        (∀ x ∈ r.1, SetsBit x.2) ∧ 0 ∈ r.2.g) := by
    decide +kernel
  obtain ⟨steps, d, run, facts⟩ := exec_any found
  obtain ⟨events, bits, vertex⟩ := of_decide_eq_true facts
  exact ⟨steps, d, run, events, (conviction_counts run bits vertex).1⟩

end Subzero.DAG
