import Subzero.Sleet.Liveness
import Subzero.Sleet.Pruning
import Subzero.Sleet.Reissue

/-! The two ways to be accepted. Pruning goes by the counters of the whole DAG, while the status
and the message to hail come from the ancestry of one queried transaction. They agree as long
as no step makes an ancestry final that it does not look at. -/
namespace Subzero
variable {H : Type} [DecidableEq H] [Blake3 H]
variable {a f : H} {tx : Tx H}

namespace ConflictGraph
variable {c c' : ConflictGraph H} {cell : Cell H}

/-- A new cell has a counter that is high enough only if its first conflict has. -/
theorem Inserted.fresh_enough (ins : Inserted c cell c') (stored : ∀ h ∈ c.cs, h ∈ c.cells)
    (enough : (c.freshSet cell).Enough (c.freshSet cell).cnt) :
    ∃ first ∈ c.firstConflict cell, BETA2 ≤ first.cnt := by
  cases found : c.firstConflict cell with
  | none =>
    rw [freshSet, found] at enough
    rcases enough with ⟨_, high⟩ | high <;> cases high
  | some first =>
    refine ⟨first, rfl, ?_⟩
    rcases enough with ⟨single, _⟩ | high
    · -- a new cell with a conflict is not alone in its set
      obtain ⟨k, at_first, _⟩ := Option.bind_eq_some_iff.mp found
      have conflict : k ∈ c.conflictsOf cell := by
        have listed := List.find?_some at_first
        exact of_decide_eq_true listed
      have other : k ≠ cell.hash := by
        rintro rfl
        exact ins.fresh (stored _ (ins.linked _ conflict))
      have more : 1 < (c.freshSet cell).conflicts.card := by
        rw [ins.freshSet_conflicts]
        exact Finset.one_lt_card.mpr ⟨k, Finset.mem_insert_of_mem conflict, cell.hash,
          Finset.mem_insert_self _ _, other⟩
      have one : (c.freshSet cell).conflicts.card = 1 := of_decide_eq_true single
      omega
    · rwa [freshSet, found] at high

/-- An insertion makes no other counter high enough. -/
theorem Inserted.old_enough (ins : Inserted c cell c') (owned : Owned c) {k : H}
    (other : k ≠ cell.hash) {set' : ConflictSet H} (found : c'.cs.lookup k = some set')
    (enough : set'.Enough set'.cnt) : ∃ set ∈ c.cs.lookup k, set.Enough set.cnt := by
  rcases ins.sets found with ⟨same, _⟩ | ⟨_, set, known, rfl⟩
  · exact absurd same other
  · refine ⟨set, known, ?_⟩
    split at enough
    · rcases enough with ⟨single, _⟩ | high
      · have more : 1 < (set.joined cell.hash).conflicts.card :=
          Finset.one_lt_card.mpr ⟨k, Finset.mem_insert_of_mem (owned k set known), cell.hash,
            Finset.mem_insert_self _ _, other⟩
        have one : (set.joined cell.hash).conflicts.card = 1 := of_decide_eq_true single
        omega
      · exact .inr high
    · exact enough

end ConflictGraph

namespace Sleet

/-- The verdict on a transaction after a query of `root` that gets its votes. The ancestry of
`root` counts them, and the status of `root` is written. -/
def FinalAfter (s : Sleet H) (root a : H) : Prop :=
  if a = root then ∃ set ∈ s.conflictGraph.cs.lookup a, set.Enough (set.bumped a)
  else if a ∈ s.dag.dfs root then s.NearlyFinal a else s.Final a

instance (s : Sleet H) (root a : H) : Decidable (s.FinalAfter root a) :=
  inferInstanceAs (Decidable (if a = root then
      ∃ set ∈ s.conflictGraph.cs.lookup a, set.Enough (set.bumped a)
    else if a ∈ s.dag.dfs root then s.NearlyFinal a else s.Final a))

/-- The ancestry of a vertex can be final once the conflicts are gone. If the vertex is swept
itself, then edges above it may be gone, too. -/
def Closes (s : Sleet H) (hashes : List H) (f : H) : Prop :=
  s.Settled hashes f ∧ (s.Swept hashes f ∨ ∀ u ∈ s.dag.dfs f, s.Settled hashes u)

/-- A received transaction is not final at once: if it takes over a full counter from its first
conflict, then it is not a vertex yet, and it has no parents that are not accepted, or the
ancestry of one of them is not final. -/
def Green (s : Sleet H) (tx : Tx H) : Prop :=
  ∀ first ∈ s.conflictGraph.firstConflict tx.cell, BETA2 ≤ first.cnt → tx.hash ∉ s.dag.g ∧
    ((∀ p ∈ s.removeAcceptedParents tx.parents, s.Verdict p) →
      s.removeAcceptedParents tx.parents = [])

/-- The parents of a vertex with a final ancestry are accepted, and what is accepted and has
children is sent. -/
structure Agreed (sent : H → Cell H → Prop) (s : Sleet H) : Prop where
  accepted : ∀ f p, s.dag.Parent f p → s.Verdict f → s.knownTxs.status p = some .accepted
  sent : ∀ f p tx, s.dag.Parent f p → s.knownTxs.lookup p = some tx → tx.status = .accepted →
    sent p tx.cell

section
variable {s s' : Sleet H} {sent : H → Cell H → Prop}

section
omit [Blake3 H]

theorem final_congr (status : s'.knownTxs.status a = s.knownTxs.status a)
    (sets : s'.conflictGraph.cs.lookup a = s.conflictGraph.cs.lookup a) :
    s'.Final a ↔ s.Final a := by
  unfold Final
  rw [status, sets]

theorem Verdict.ancestor (linked : s.dag.Linked) (verdict : s.Verdict f)
    (member : a ∈ s.dag.dfs f) : s.Verdict a :=
  fun u above => verdict u (linked.dfs_subset member above)

/-- A verdict holds before if the ancestry has lost nothing and no less was final. -/
theorem Verdict.before (linked : s.dag.Linked) (linked' : s'.dag.Linked) (vertex : f ∈ s'.dag.g)
    (path : ∀ u, s.dag.Ancestor f u → s'.dag.Ancestor f u)
    (final : ∀ u ∈ s.dag.dfs f, s'.Final u → s.Final u) (verdict : s'.Verdict f) : s.Verdict f := by
  intro u member
  refine final u member (verdict u (linked'.mem_dfs.mpr ⟨vertex, path u ?_⟩))
  exact (linked.mem_dfs.mp member).2

/-- A proper ancestor has a child in the ancestry. -/
theorem child_of_mem (linked : s.dag.Linked) (member : a ∈ s.dag.dfs f) (other : a ≠ f) :
    ∃ c ∈ s.dag.dfs f, s.dag.Parent c a := by
  obtain ⟨vertex, path⟩ := linked.mem_dfs.mp member
  rcases Relation.ReflTransGen.cases_tail path with same | ⟨c, above, edge⟩
  · exact absurd same other
  · exact ⟨c, linked.mem_dfs.mpr ⟨vertex, above⟩, edge⟩

theorem Agreed.mono {sent' : H → Cell H → Prop} (agreed : s.Agreed sent)
    (more : ∀ p cell, sent p cell → sent' p cell) : s.Agreed sent' where
  accepted := agreed.accepted
  sent f p tx edge found final := more p tx.cell (agreed.sent f p tx edge found final)

/-- With the same vertices and statuses, no more may become final. -/
theorem Agreed.of_final (agreed : s.Agreed sent) (g : s'.dag.g = s.dag.g)
    (txs : s'.knownTxs = s.knownTxs) (final : ∀ a ∈ s.dag.g, s'.Final a → s.Final a) :
    s'.Agreed sent := by
  have edges : ∀ {f p}, s'.dag.Parent f p → s.dag.Parent f p := (DAG.parent_congr g).mp
  refine ⟨fun f p edge verdict => ?_, fun f p tx edge found => ?_⟩
  · rw [txs]
    refine agreed.accepted f p (edges edge) fun a member => final a (DAG.dfs_mem member) ?_
    exact verdict a (dfs_congr g f ▸ member)
  · exact agreed.sent f p tx (edges edge) (txs ▸ found)

theorem Agreed.aside {added : Finset H} (agreed : s.Agreed sent) (linked : s.dag.Linked)
    (aside : Aside added s s') : s'.Agreed sent := by
  obtain ⟨linked', _, same⟩ := aside.dag linked
  have sets : s'.conflictGraph.cs = s.conflictGraph.cs := by
    rcases aside.graph with eq | ⟨_, _, eq⟩ <;> rw [eq]
    rfl
  refine ⟨fun f p edge verdict => ?_, fun f p tx edge found => ?_⟩
  · rw [aside.txs]
    refine agreed.accepted f p ((same f p).mp edge) (verdict.before linked linked' edge.mem ?_ ?_)
    · exact fun u path => Relation.ReflTransGen.mono (fun _ _ => (same _ _).mpr) _ _ path
    · exact fun u _ => (final_congr (by rw [aside.txs]) (by rw [sets])).mp
  · exact agreed.sent f p tx ((same f p).mp edge) (aside.txs ▸ found)

end

omit [Blake3 H] in
/-- A vertex is added. It is not final, or it has no parents, or an ancestor is not final. -/
theorem Agreed.grown {v : H} {edges : List H} (agreed : s.Agreed sent) (linked : s.dag.Linked)
    (linked' : s'.dag.Linked) (absent : v ∉ s.dag.g) (grown : s'.dag.g = s.dag.g.insert v edges)
    (inside : ∀ p ∈ edges, p ∈ s.dag.g)
    (undecided : ∀ p ∈ edges, s.knownTxs.status p ≠ some .accepted)
    (txs : ∀ a ≠ v, s'.knownTxs.lookup a = s.knownTxs.lookup a)
    (final : ∀ a ≠ v, s'.Final a → s.Final a)
    (own : s'.Final v → (∀ p ∈ edges, s.Verdict p) → edges = []) : s'.Agreed sent := by
  have old : ∀ {a}, a ∈ s.dag.g → a ≠ v := fun present same => absent (same ▸ present)
  have status : ∀ {a}, a ∈ s.dag.g → s'.knownTxs.status a = s.knownTxs.status a := by
    intro a present
    unfold TxDb.status
    rw [txs a (old present)]
  have before : ∀ {f}, f ∈ s.dag.g → s'.Verdict f → s.Verdict f := by
    intro f vertex verdict
    refine verdict.before linked linked' ?_ (fun u path => ?_) fun u member => ?_
    · rw [grown]
      exact Finmap.mem_insert.mpr (.inr vertex)
    · induction path with
      | refl => exact .refl
      | tail path edge ih =>
        refine ih.tail ((DAG.parent_insert grown).mpr ?_)
        rwa [if_neg (old edge.mem)]
    · exact final u (old (DAG.dfs_mem member))
  refine ⟨fun f p edge verdict => ?_, fun f p tx edge found accepted => ?_⟩
  · rw [DAG.parent_insert grown] at edge
    split at edge
    · -- the new vertex is final only if it has no parents
      rename_i same
      subst same
      have vertex : f ∈ s'.dag.g := grown ▸ Finmap.mem_insert.mpr (.inl rfl)
      have above : ∀ q ∈ edges, s.Verdict q := fun q listed =>
        before (inside q listed) (verdict.ancestor linked' (linked'.mem_dfs.mpr ⟨vertex, .single
          ((DAG.parent_insert grown).mpr (by rwa [if_pos rfl]))⟩))
      have none := own (verdict f (linked'.self_mem_dfs vertex)) above
      rw [none] at edge
      cases edge
    · rw [status (linked.closed f p edge)]
      exact agreed.accepted f p edge (before edge.mem verdict)
  · rw [DAG.parent_insert grown] at edge
    split at edge
    · rw [txs p (old (inside p edge))] at found
      exact absurd (congrArg (Option.map Tx.status) found |>.trans (congrArg some accepted))
        (undecided p edge)
    · rw [txs p (old (linked.closed f p edge))] at found
      exact agreed.sent f p tx edge found accepted

/-- A transaction that is final after an insertion of another one was final before. -/
theorem Final.of_inserted {a : H} (final : s'.Final a) (owned : s.conflictGraph.Owned)
    (ins : s.conflictGraph.Inserted tx.cell s'.conflictGraph) (other : a ≠ tx.hash)
    (status : s'.knownTxs.status a = s.knownTxs.status a) : s.Final a := by
  unfold Final at final ⊢
  rw [status] at final
  rcases final with accepted | ⟨removed, rejected, set', found, enough⟩
  · exact .inl accepted
  · exact .inr ⟨removed, rejected, ins.old_enough owned other found enough⟩

/-- A transaction that is final when it is inserted takes its count from a conflict. -/
theorem Final.first_enough (final : s'.Final tx.hash) (enrolled : s.conflictGraph.Enrolled)
    (ins : s.conflictGraph.Inserted tx.cell s'.conflictGraph)
    (undecided : s'.knownTxs.status tx.hash ≠ some .accepted) :
    ∃ first ∈ s.conflictGraph.firstConflict tx.cell, BETA2 ≤ first.cnt := by
  rcases final with accepted | ⟨_, _, set, found, enough⟩
  · exact absurd accepted undecided
  · have own : tx.hash = tx.cell.hash := rfl
    rw [ins.cs, if_pos own] at found
    cases found
    exact ins.fresh_enough (fun h seated => (enrolled h seated).1) enough

/-- A transaction is received. -/
theorem Agreed.receive {order : HashOrder H} (agreed : s.Agreed sent) (linked : s.dag.Linked)
    (enrolled : s.conflictGraph.Enrolled) (owned : s.conflictGraph.Owned)
    (green : s.Insertable tx → s.Green tx) (left : (s.onReceiveTx order tx).state? = some s') :
    s'.Agreed sent := by
  have undecided : ∀ p ∈ s.removeAcceptedParents tx.parents,
      s.knownTxs.status p ≠ some .accepted := by
    intro p listed accepted
    have kept := (List.mem_filter.mp listed).2
    simp [(accepted_iff s p).mpr accepted] at kept
  have receipt := onReceiveTx_receipt order s tx
  generalize s.onReceiveTx order tx = out at receipt left
  cases receipt with
  | refused e => cases left; exact agreed
  | known found alive => cases left; exact agreed
  | panic => cases left
  | conflicts insertable conflict =>
    cases left
    rcases ConflictGraph.insertCell_cases order (fun h seated => (enrolled h seated).1)
      (congrArg Outcome.state? conflict) with ⟨done, _⟩ | ⟨_, refused⟩
    · cases conflict.symm.trans done
    · refine agreed.of_final rfl rfl fun a _ final => Iff.mp ?_ final
      exact final_congr rfl (congrArg (·.lookup a) refused.cs)
  | @vertex e cg d insertable conflict vertex =>
    cases left
    have ins := enrolled.inserted conflict
    have inside := hasParents_inside insertable.parents
    have unknown : s.knownTxs.status tx.hash ≠ some .accepted := by
      intro accepted
      obtain ⟨known, found, status⟩ := Option.map_eq_some_iff.mp accepted
      cases status.symm.trans (insertable.open_ known found)
    obtain ⟨linked', _, ⟨there, g, _⟩ | ⟨absent, grown⟩⟩ :=
      DAG.insertVx_cases linked inside (congrArg Outcome.state? vertex)
    · refine agreed.of_final g rfl fun a _ final => ?_
      by_cases same : a = tx.hash
      · subst same
        obtain ⟨first, at_first, full⟩ := final.first_enough enrolled ins unknown
        exact absurd there (green insertable first at_first full).1
      · exact final.of_inserted owned ins same rfl
    · refine agreed.grown linked linked' absent grown inside undecided (fun _ _ => rfl)
        (fun a other final => final.of_inserted owned ins other rfl) fun final => ?_
      obtain ⟨first, at_first, full⟩ := final.first_enough enrolled ins unknown
      exact (green insertable first at_first full).2
  | @stored cg d insertable conflict vertex =>
    cases left
    have ins := enrolled.inserted conflict
    have inside := hasParents_inside insertable.parents
    have inserted := DAG.insertVx_inserted vertex
    have linked' := (DAG.insertVx_cases linked inside (congrArg Outcome.state? vertex)).1
    have txs : ∀ a ≠ tx.hash, (s.knownTxs.insertTx { tx with status := .pending }).lookup a =
        s.knownTxs.lookup a := fun a other => Finmap.lookup_insert_of_ne _ other
    refine agreed.grown linked linked' inserted.fresh inserted.g inside undecided txs
      (fun a other final => final.of_inserted owned ins other ?_) fun final => ?_
    · exact congrArg (Option.map Tx.status) (txs a other)
    · obtain ⟨first, at_first, full⟩ :=
        final.first_enough enrolled ins (by simp [TxDb.status, TxDb.insertTx, Tx.hash])
      exact (green insertable first at_first full).2

theorem Agreed.takes {added : Finset H} {rs : List (Sleet H × Tx H)} (takes : s.Takes added rs s')
    (agreed : s.Agreed sent) (linked : s.dag.Linked) (enrolled : s.conflictGraph.Enrolled)
    (owned : s.conflictGraph.Owned) (green : ∀ r ∈ rs, r.1.Insertable r.2 → r.1.Green r.2) :
    s'.conflictGraph.Owned ∧ s'.Agreed sent := by
  induction takes with
  | done => exact ⟨owned, agreed⟩
  | aside step _ ih =>
    refine ih (agreed.aside linked step) (step.dag linked).1 ?_ ?_ green
    all_goals rcases step.graph with same | ⟨_, _, same⟩ <;> rw [same]
    exacts [enrolled, enrolled, owned, owned]
  | receive left _ ih =>
    refine ih (agreed.receive linked enrolled owned (green _ List.mem_cons_self) left)
      ((onReceiveTx_admits left).linked linked) (onReceiveTx_enrolled left enrolled) ?_
      fun r listed => green r (List.mem_cons_of_mem _ listed)
    rcases onReceiveTx_graph left with rfl | ⟨_, inserted⟩
    · exact owned
    · rcases ConflictGraph.insertCell_cases _ (fun h seated => (enrolled h seated).1) inserted with
        ⟨_, ins⟩ | ⟨_, refused⟩
      · exact owned.inserted ins
      · exact fun k set found => owned k set (refused.cs ▸ found)

section Query
variable {root : H} {new : List H}

omit [Blake3 H] in
/-- A failed query leaves no counter in the ancestry. -/
theorem failQuery_reset (done : s.failQuery root = some s') (member : a ∈ s.dag.dfs root)
    {set : ConflictSet H} (found : s'.conflictGraph.cs.lookup a = some set) : set.cnt = 0 := by
  obtain ⟨⟨_, s₁⟩, unwrapped, rfl⟩ := Option.map_eq_some_iff.mp done
  let zero : Sleet H → Prop := fun s => ∀ set ∈ s.conflictGraph.cs.lookup a, set.cnt = 0
  let body : H → Sleet H → Outcome (SleetError H) (Sleet H) Unit := fun hash s =>
    (s.conflictGraph.resetCount hash).lift SleetError.graph fun cg => { s with conflictGraph := cg }
  have kept : ∀ h s t, (body h s).state? = some t → zero s → zero t := by
    intro h s t round before set found
    rw [Outcome.state?_lift] at round
    obtain ⟨cg, reset, rfl⟩ := Option.map_eq_some_iff.mp round
    rcases ConflictGraph.mutateSet_cases reset with ⟨rfl, _⟩ | ⟨old, _, rfl, _⟩
    · exact before set found
    · rcases HashMap.lookup_insert_some found with ⟨_, rfl⟩ | ⟨_, there⟩
      · rfl
      · exact before set there
  have loop : ∀ (l : List H) (s t : Sleet H), Outcome.forEach body l s = .ok () t → a ∈ l →
      zero t := by
    intro l
    induction l with
    | nil => exact fun _ _ _ listed => absurd listed List.not_mem_nil
    | cons h l ih =>
      intro s t done listed
      obtain ⟨⟨⟩, u, first, rest⟩ := Outcome.bind_eq_ok.mp done
      by_cases later : a ∈ l
      · exact ih u t rest later
      · obtain rfl := (List.mem_cons.mp listed).resolve_right later
        refine Outcome.forEach_rel (fun s t => zero s → zero t) (fun _ => id)
          (fun _ _ _ first second => second ∘ first) body l (fun h _ s t => kept h s t) u t
          (congrArg Outcome.state? rest) fun set found => ?_
        obtain ⟨cg, reset, rfl⟩ := Outcome.lift_eq_ok.mp first
        obtain ⟨old, _, rfl⟩ := ConflictGraph.mutateSet_ok reset
        rcases HashMap.lookup_insert_some found with ⟨_, rfl⟩ | ⟨other, _⟩
        · rfl
        · exact absurd rfl other
  exact loop _ s s₁ (Outcome.unwrap_eq_some.mp unwrapped) member set found

omit [Blake3 H] in
/-- Nothing becomes final by a failed query, and what was queried is not. -/
theorem failed_final {s₁ : Sleet H} (linked : s.dag.Linked) (failed : s.failQuery root = some s₁)
    (marked : s₁.markQueried root = some s') (inside : a ∈ s.dag.g) (final : s'.Final a) :
    a ≠ root ∧ s.Final a := by
  have completed := failQuery_completed failed marked
  have sets : s'.conflictGraph = s₁.conflictGraph := (markQueried_some marked).2.2.1
  have status : a ≠ root → s'.knownTxs.status a = s.knownTxs.status a := by
    intro other
    unfold TxDb.status
    rw [completed.txs, if_neg other, if_neg List.not_mem_nil]
  by_cases member : a ∈ s.dag.dfs root
  · -- no counter is left, so the transaction is accepted
    rcases final with accepted | ⟨_, _, set, found, enough⟩
    · obtain ⟨tx, stored, accepted⟩ := Option.map_eq_some_iff.mp accepted
      have other := (completed.accepted stored accepted).1
      refine ⟨other, .inl ?_⟩
      rw [← status other, TxDb.status, stored, ← accepted]
      rfl
    · rw [sets] at found
      rw [failQuery_reset failed member found] at enough
      rcases enough with ⟨_, high⟩ | high <;> cases high
  · have other : a ≠ root := by
      rintro rfl
      exact member (linked.self_mem_dfs inside)
    refine ⟨other, (final_congr (status other) ?_).mp final⟩
    rw [sets, failQuery_kept failed member]

omit [Blake3 H] in
theorem Agreed.failed {s₁ : Sleet H} (agreed : s.Agreed sent) (linked : s.dag.Linked)
    (failed : s.failQuery root = some s₁) (marked : s₁.markQueried root = some s') :
    s'.Agreed sent := by
  have completed := failQuery_completed failed marked
  have edges : ∀ {f p}, s'.dag.Parent f p → s.dag.Parent f p := (DAG.parent_congr completed.g).mp
  refine ⟨fun f p edge verdict => ?_, fun f p tx edge found accepted => ?_⟩
  · have before : ∀ a ∈ s.dag.dfs f, a ≠ root ∧ s.Final a := fun a member =>
      failed_final linked failed marked (DAG.dfs_mem member)
        (verdict a (dfs_congr completed.g f ▸ member))
    have parent : p ∈ s.dag.dfs f :=
      linked.mem_dfs.mpr ⟨(edges edge).mem, .single (edges edge)⟩
    unfold TxDb.status
    rw [completed.txs, if_neg (before p parent).1, if_neg List.not_mem_nil]
    exact agreed.accepted f p (edges edge) fun a member => (before a member).2
  · obtain ⟨_, old, _⟩ := completed.accepted found accepted
    exact agreed.sent f p tx (edges edge) (old List.not_mem_nil) accepted

/-- A count that is enough after a query that gets its votes could be foreseen. -/
theorem queryComplete_enough {acks : List (Response H)} {set' : ConflictSet H}
    (linked : s.dag.Linked) (succeeds : s.Succeeds acks)
    (done : s.queryComplete tx acks = some (new, s'))
    (found : set' ∈ s'.conflictGraph.cs.lookup a) (enough : set'.Enough set'.cnt) :
    ∃ set ∈ s.conflictGraph.cs.lookup a,
      set.Enough (if a ∈ s.dag.dfs tx.hash then set.bumped a else set.cnt) := by
  obtain ⟨s₁, passed, marked⟩ := queryComplete_passes succeeds done
  obtain ⟨set, known, same⟩ :=
    (queryComplete_completed linked done).1.retuned.below found
  obtain ⟨set₁, found₁, cnt⟩ := passQuery_counts linked passed known
  rw [(markQueried_some marked).2.2.1] at found
  cases found.symm.trans found₁
  refine ⟨set, known, ?_⟩
  unfold ConflictSet.Enough ConflictSet.isSingleton at enough ⊢
  rwa [← cnt, ← same]

/-- What is final after a query that gets its votes could be foreseen. -/
theorem queryComplete_final {acks : List (Response H)} (linked : s.dag.Linked)
    (succeeds : s.Succeeds acks) (done : s.queryComplete tx acks = some (new, s'))
    (inside : a ∈ s.dag.g) (final : s'.Final a) : s.FinalAfter tx.hash a := by
  obtain ⟨completed, _, exactly⟩ := queryComplete_completed linked done
  unfold FinalAfter
  split
  · rename_i same
    subst same
    rcases final with accepted | ⟨_, _, set, found, enough⟩
    · obtain ⟨stored, there, accepted⟩ := Option.map_eq_some_iff.mp accepted
      exact absurd rfl (completed.accepted there accepted).1
    · obtain ⟨set, known, enough⟩ := queryComplete_enough linked succeeds done found enough
      rw [if_pos (linked.self_mem_dfs inside)] at enough
      exact ⟨set, known, enough⟩
  · rename_i other
    have status : a ∉ new → s'.knownTxs.status a = s.knownTxs.status a := by
      intro old
      unfold TxDb.status
      rw [completed.txs, if_neg other, if_neg old]
    split
    · rename_i member
      by_cases fresh : a ∈ new
      · exact ((exactly a).mp fresh).2.1.2 a (linked.self_mem_dfs inside)
      · unfold Final at final
        rw [status fresh] at final
        rcases final with accepted | ⟨removed, rejected, set, found, enough⟩
        · exact .inl accepted
        · obtain ⟨set, known, enough⟩ := queryComplete_enough linked succeeds done found enough
          rw [if_pos member] at enough
          exact .inr ⟨removed, rejected, set, known, enough⟩
    · rename_i outside
      have old : a ∉ new := fun fresh => outside ((exactly a).mp fresh).2.1.1
      unfold Final at final ⊢
      rw [status old] at final
      rcases final with accepted | ⟨removed, rejected, set, found, enough⟩
      · exact .inl accepted
      · obtain ⟨set, known, enough⟩ := queryComplete_enough linked succeeds done found enough
        rw [if_neg outside] at enough
        exact .inr ⟨removed, rejected, set, known, enough⟩

/-- A query gets its votes. It makes no child of its transaction final, and if it makes the
ancestry of another vertex final then it looks at the parents of that vertex, too. -/
theorem Agreed.passed {acks : List (Response H)} (agreed : s.Agreed sent) (linked : s.dag.Linked)
    (succeeds : s.Succeeds acks)
    (own : ∀ c, s.dag.Parent c tx.hash → ¬ ∀ a ∈ s.dag.dfs c, s.FinalAfter tx.hash a)
    (side : ∀ f p, s.dag.Parent f p → (∀ a ∈ s.dag.dfs f, s.FinalAfter tx.hash a) → s.Verdict f ∨ p
      ∈ s.dag.dfs tx.hash) (done : s.queryComplete tx acks = some (new, s')) :
    s'.Agreed fun p cell => sent p cell ∨ p ∈ new := by
  obtain ⟨completed, _, exactly⟩ := queryComplete_completed linked done
  have edges : ∀ {f p}, s'.dag.Parent f p → s.dag.Parent f p := (DAG.parent_congr completed.g).mp
  refine ⟨fun f p edge verdict => ?_, fun f p tx' edge found accepted => ?_⟩
  · have after : ∀ a ∈ s.dag.dfs f, s.FinalAfter tx.hash a := fun a member =>
      queryComplete_final linked succeeds done (DAG.dfs_mem member)
        (verdict a (dfs_congr completed.g f ▸ member))
    have above : ∀ {c}, c ∈ s.dag.dfs f → ∀ a ∈ s.dag.dfs c, s.FinalAfter tx.hash a :=
      fun member a inside => after a (linked.dfs_subset member inside)
    have parent : p ∈ s.dag.dfs f := linked.mem_dfs.mpr ⟨(edges edge).mem, .single (edges edge)⟩
    have other : p ≠ tx.hash := by
      rintro rfl
      exact own f (edges edge) after
    by_cases fresh : p ∈ new
    · obtain ⟨old, known⟩ := Finmap.mem_iff.mp (completed.known p fresh)
      unfold TxDb.status
      rw [completed.txs, if_neg other, if_pos fresh, known]
      rfl
    · unfold TxDb.status
      rw [completed.txs, if_neg other, if_neg fresh]
      rcases side f p (edges edge) after with before | member
      · exact agreed.accepted f p (edges edge) before
      · -- the parent is ripe, and so it is new or accepted
        by_contra undecided
        refine fresh ((exactly p).mpr ⟨succeeds, ⟨member, fun a inside => ?_⟩, undecided⟩)
        have final := above parent a inside
        have apart : a ≠ tx.hash := by
          rintro rfl
          obtain ⟨c, listed, edge⟩ := child_of_mem linked inside other.symm
          exact own c edge (above (linked.dfs_subset parent listed))
        rwa [FinalAfter, if_neg apart, if_pos (linked.dfs_subset member inside)] at final
  · obtain ⟨_, old, _⟩ := completed.accepted found accepted
    by_cases fresh : p ∈ new
    · exact .inr fresh
    · exact .inl (agreed.sent f p tx' (edges edge) (old fresh) accepted)

end Query

section Sweep
variable {s₁ : Sleet H} {hashes : List H}

/-- What is final after the conflicts are removed could be final. -/
theorem Sweep.closes (sweep : Sweep (s.Rejects hashes) (s.Removes hashes) s s₁)
    (linked : s.dag.Linked) (vertex : f ∈ s₁.dag.g) (verdict : s₁.Verdict f) :
    s.Closes hashes f := by
  have linked₁ := sweep.linked linked
  refine ⟨(sweep.final_settled (verdict f (linked₁.self_mem_dfs vertex))).2, ?_⟩
  by_cases swept : s.Swept hashes f
  · exact .inl swept
  · -- an ancestry that is not swept is found again
    refine .inr fun u member => ?_
    have path := (sweep.ancestor linked swept (linked.mem_dfs.mp member).2).1
    exact (sweep.final_settled (verdict u (linked₁.mem_dfs.mpr ⟨vertex, path⟩))).2

theorem Sweep.accepted (sweep : Sweep (s.Rejects hashes) (s.Removes hashes) s s₁) {h : H}
    (found : s₁.knownTxs.lookup h = some tx) (accepted : tx.status = .accepted) :
    s.knownTxs.lookup h = some tx := by
  rcases sweep.txs h with same | ⟨_, marked⟩ | ⟨_, marked⟩
  · exact same ▸ found
  all_goals
    rw [marked] at found
    obtain ⟨old, _, rfl⟩ := Option.map_eq_some_iff.mp found
    cases accepted

/-- The conflicts are removed. If that makes the ancestry of a vertex final, then its parents
are accepted. -/
theorem Agreed.swept (agreed : s.Agreed sent) (linked : s.dag.Linked)
    (sweep : Sweep (s.Rejects hashes) (s.Removes hashes) s s₁)
    (closes : ∀ f p, s.dag.Parent f p → s.Settled hashes p → s.Closes hashes f →
      s.Verdict f ∨ s.knownTxs.status p = some .accepted) : s₁.Agreed sent := by
  refine ⟨fun f p edge verdict => ?_, fun f p tx edge found accepted => ?_⟩
  · have parent : p ∈ s₁.dag.dfs f :=
      (sweep.linked linked).mem_dfs.mpr ⟨edge.mem, .single edge⟩
    obtain ⟨same, settled⟩ := sweep.final_settled (verdict p parent)
    have before := sweep.parent f p edge
    unfold TxDb.status
    rw [same]
    rcases closes f p before settled (sweep.closes linked edge.mem verdict) with old | accepted
    · exact agreed.accepted f p before old
    · exact accepted
  · exact agreed.sent f p tx (sweep.parent f p edge) (sweep.accepted found accepted) accepted

omit [Blake3 H] in
theorem dropAll_keep (l : List H) (s : Sleet H) {v p : H} (stays : v ∉ l) (stays' : p ∉ l)
    (edge : s.dag.Parent v p) : (l.foldl dropVx s).dag.Parent v p := by
  induction l generalizing s with
  | nil => exact edge
  | cons a l ih =>
    obtain ⟨d, eq, removed⟩ := dropVx_dag s a
    rw [List.mem_cons, not_or] at stays stays'
    refine ih (s.dropVx a) stays.2 stays'.2 ?_
    rw [eq]
    exact (DAG.removeVx_frame removed).keep v p stays.1 stays'.1 edge

omit [Blake3 H] in
/-- What is pruned has a final ancestry, so no ancestry becomes final by it. -/
theorem Agreed.pruned {order : HashOrder H} (agreed : s.Agreed sent) (linked : s.dag.Linked)
    (done : s.pruneAtAcceptedFrontier order = some s') : s'.Agreed sent := by
  obtain ⟨txs, sets, linked'⟩ := prune_some order done
  obtain ⟨l, s₁, dag, rfl, dropped⟩ := prune_drops done
  have edges : ∀ {f p}, (l.foldl dropVx s₁).dag.Parent f p → s.dag.Parent f p :=
    fun edge => dag ▸ dropAll_parent l s₁ _ _ edge
  have gone : ∀ {a}, a ∈ l → s.Verdict a := by
    intro a listed
    obtain ⟨f, _, member, verdict⟩ := dropped a listed
    exact verdict.ancestor linked member
  have before : ∀ {f}, f ∈ (l.foldl dropVx s₁).dag.g → (l.foldl dropVx s₁).Verdict f →
      s.Verdict f := by
    intro f vertex verdict
    by_cases listed : f ∈ l
    · exact gone listed
    have paths : ∀ u, s.dag.Ancestor f u →
        (u ∉ l ∧ (l.foldl dropVx s₁).dag.Ancestor f u) ∨ s.Verdict u := by
      intro u path
      induction path with
      | refl => exact .inl ⟨listed, .refl⟩
      | @tail b c _ edge ih =>
        rcases ih with ⟨stays, path⟩ | final
        · by_cases here : c ∈ l
          · exact .inr (gone here)
          · exact .inl ⟨here, path.tail (dropAll_keep l s₁ stays here (dag ▸ edge))⟩
        · exact .inr (final.ancestor linked (linked.mem_dfs.mpr ⟨edge.mem, .single edge⟩))
    intro u member
    rcases paths u (linked.mem_dfs.mp member).2 with ⟨_, path⟩ | final
    · refine (final_congr (by rw [txs]) (by rw [sets])).mp (verdict u ?_)
      exact (linked' linked).mem_dfs.mpr ⟨vertex, path⟩
    · exact final u (linked.self_mem_dfs (DAG.dfs_mem member))
  refine ⟨fun f p edge verdict => ?_, fun f p tx edge found => ?_⟩
  · rw [txs]
    exact agreed.accepted f p (edges edge) (before edge.mem verdict)
  · exact agreed.sent f p tx (edges edge) (txs ▸ found)

end Sweep

/-- A fetched transaction is stored. If it is a vertex then it has no children, and either its
parents are accepted or another ancestor is not final. -/
theorem Agreed.fetched (agreed : s.Agreed sent) (linked : s.dag.Linked)
    (childless : ∀ c, ¬ s.dag.Parent c tx.hash)
    (parents : ∀ p, s.dag.Parent tx.hash p → s.knownTxs.status p = some .accepted ∨ ∃ u ∈ s.dag.dfs
      tx.hash, u ≠ tx.hash ∧ ¬ s.Final u) :
    ({ s with knownTxs := s.knownTxs.insertTx tx } : Sleet H).Agreed sent := by
  have txs : ∀ a ≠ tx.hash, (s.knownTxs.insertTx tx).lookup a = s.knownTxs.lookup a :=
    fun a other => Finmap.lookup_insert_of_ne _ other
  have final : ∀ a ≠ tx.hash, ({ s with knownTxs := s.knownTxs.insertTx tx } : Sleet H).Final a →
      s.Final a := by
    intro a other
    refine Iff.mp (final_congr ?_ rfl)
    exact congrArg (Option.map Tx.status) (txs a other)
  have apart : ∀ {f p}, s.dag.Parent f p → p ≠ tx.hash := fun edge same =>
    childless _ (same ▸ edge)
  refine ⟨fun f p edge verdict => ?_, fun f p tx' edge found => ?_⟩
  · have status : (s.knownTxs.insertTx tx).status p = s.knownTxs.status p :=
      congrArg (Option.map Tx.status) (txs p (apart edge))
    rw [status]
    by_cases same : f = tx.hash
    · subst same
      rcases parents p edge with accepted | ⟨u, member, other, open_⟩
      · exact accepted
      · exact absurd (final u other (verdict u member)) open_
    · refine agreed.accepted f p edge fun a member => final a ?_ (verdict a member)
      rintro rfl
      obtain ⟨c, _, edge⟩ := child_of_mem linked member (Ne.symm same)
      exact childless c edge
  · exact agreed.sent f p tx' edge ((txs p (apart edge)).symm.trans found)

end
end Sleet

namespace Actor

/-- The cell of a transaction was sent to hail, or its hash is in a message under way. -/
def Forwarded (w : Actor H) (h : H) (cell : Cell H) : Prop :=
  h ∈ posted w.mailbox ∨ cell ∈ w.hail.flatten

/-- The condition on a step.

A query that gets its votes makes no child of its transaction final, and if it makes the
ancestry of a vertex final, then it looks at the parents of that vertex. What is received is
not final at once. If the removal of conflicts makes the ancestry of a vertex final, then its
parents are accepted. What waits in another message has no child with a final ancestry, unless
its cell was sent before. What is fetched has no children in the DAG, and does not complete an
ancestry. -/
structure Agrees (order : HashOrder H) (w : Actor H) (e : Event H) : Prop where
  own : ∀ root ∈ w.passing e, ∀ c, w.sleet.dag.Parent c root →
    ¬ ∀ a ∈ w.sleet.dag.dfs c, w.sleet.FinalAfter root a
  side : ∀ root ∈ w.passing e, ∀ f p, w.sleet.dag.Parent f p →
    (∀ a ∈ w.sleet.dag.dfs f, w.sleet.FinalAfter root a) →
      w.sleet.Verdict f ∨ p ∈ w.sleet.dag.dfs root
  green : ∀ r ∈ w.receipts order e, r.1.Insertable r.2 → r.1.Green r.2
  closes : ∀ hashes ∈ w.accepting e, ∀ f p, w.sleet.dag.Parent f p → w.sleet.Settled hashes p →
    w.sleet.Closes hashes f → w.sleet.Verdict f ∨ w.status p = some .accepted
  waits : ∀ hashes ∈ w.accepting e, ∀ a ∈ posted w.mailbox, a ∉ hashes →
    ∀ c, w.sleet.dag.Parent c a → w.sleet.Closes hashes c →
      ∃ tx ∈ w.sleet.knownTxs.lookup a, tx.cell ∈ w.hail.flatten
  fetched : ∀ tx ∈ w.fetched e, (∀ c, ¬ w.sleet.dag.Parent c tx.hash) ∧
    ∀ p, w.sleet.dag.Parent tx.hash p → w.status p = some .accepted ∨
      ∃ u ∈ w.sleet.dag.dfs tx.hash, u ≠ tx.hash ∧ ¬ w.sleet.Final u

variable {order : HashOrder H} {w w' : Actor H} {e : Event H}

theorem Move.agreed (move : Move order w e w') (sound : Sound w)
    (enrolled : w.sleet.conflictGraph.Enrolled) (owned : w.sleet.conflictGraph.Owned)
    (agrees : w.Agrees order e) (agreed : w.sleet.Agreed w.Forwarded) :
    w'.sleet.conflictGraph.Owned ∧ w'.sleet.Agreed w'.Forwarded := by
  have forward : (∀ h ∈ posted w.mailbox, h ∈ posted w'.mailbox) → w'.hail = w.hail →
      ∀ h cell, w.Forwarded h cell → w'.Forwarded h cell := by
    rintro listed same h cell (waits | sent)
    · exact .inl (listed h waits)
    · exact .inr (same ▸ sent)
  cases move with
  | receives _ takes _ hail _ mail =>
    obtain ⟨after, kept⟩ := Sleet.Agreed.takes takes agreed sound.linked enrolled owned agrees.green
    exact ⟨after, kept.mono (forward (fun _ waits => mail.symm.subset waits) hail)⟩
  | @complete tx acks new delivered done _ hail _ mail =>
    refine ⟨owned.retuned (Sleet.queryComplete_completed sound.linked done).1.retuned, ?_⟩
    have listed : ∀ h ∈ posted w.mailbox ++ new, h ∈ posted w'.mailbox := fun _ member =>
      mail.symm.subset member
    have more := forward (fun h waits => listed h (List.mem_append_left _ waits)) hail
    by_cases succeeds : w.sleet.Succeeds acks
    · have passing : tx.hash ∈ w.passing e := by simp [Actor.passing, delivered, succeeds]
      refine (agreed.passed sound.linked succeeds (agrees.own _ passing) (agrees.side _ passing)
        done).mono ?_
      rintro h cell (before | fresh)
      · exact more h cell before
      · exact .inl (listed h (List.mem_append_right _ fresh))
    · obtain ⟨s₁, failed, marked⟩ := Sleet.queryComplete_fails succeeds done
      exact (agreed.failed sound.linked failed marked).mono more
  | incomplete _ done _ hail _ mail =>
    obtain ⟨s₁, failed, marked⟩ := Option.bind_eq_some_iff.mp done
    exact ⟨owned.retuned (Sleet.queryIncomplete_completed done).retuned,
      (agreed.failed sound.linked failed marked).mono
        (forward (fun _ waits => mail.symm.subset waits) hail)⟩
  | @newAccepted hashes cells delivered handled _ hail _ mail =>
    obtain ⟨s₁, _, pruned, sweep, sent⟩ := Sleet.newAccepted_sweep order sound.keyed handled
    have told := accepting_some.mpr delivered
    have kept := (agreed.swept sound.linked sweep (agrees.closes hashes told)).pruned
      (sweep.linked sound.linked) pruned
    obtain ⟨txs, sets, _⟩ := Sleet.prune_some order pruned
    refine ⟨sets ▸ owned.shrinks sweep.sets, kept.accepted, fun f p tx edge found accepted => ?_⟩
    rcases kept.sent f p tx edge found accepted with waits | before
    · rcases List.mem_append.mp (mail.symm.subset waits) with listed | later
      · obtain ⟨tx', found', here⟩ := sent.sent p listed
        cases (sweep.accepted (txs ▸ found) accepted).symm.trans found'
        exact .inr (by simp [hail, here])
      · exact .inl later
    · exact .inr (by simp [hail, before])
  | fetches stored eq _ hail _ mail =>
    obtain ⟨childless, parents⟩ := agrees.fetched _ stored
    rw [eq]
    exact ⟨owned, (agreed.fetched sound.linked childless parents).mono
      (forward (fun h => mail ▸ id) hail)⟩

theorem agreed_run {id : Id} {ip : SocketAddr} {peers : List (Id × SocketAddr)}
    {steps : List (Actor H × HashOrder H × Event H)}
    (run : Run step (started (.new order id ip peers)) steps w)
    (meets : Meets (fun w x => w.Agrees x.1 x.2) steps) : w.sleet.Agreed w.Forwarded := by
  have edgeless : ∀ f p, ¬ (started (.new order id ip peers) : Actor H).sleet.dag.Parent f p :=
    fun f p edge => absurd edge.mem Finmap.notMem_empty
  refine (run.invariant _ meets (fun w => Sound w ∧ w.sleet.conflictGraph.Enrolled ∧
    w.sleet.conflictGraph.Owned ∧ w.sleet.Agreed w.Forwarded)
    ⟨.started order id ip peers, .new order ∅, ?_, ?_⟩ ?_).2.2.2
  · intro k set found
    simp [Actor.started, Sleet.new, ConflictGraph.new] at found
  · exact ⟨fun f p edge => absurd edge (edgeless f p), fun f p _ edge => absurd edge (edgeless f p)⟩
  · rintro u ⟨o, x⟩ v ⟨sound, enrolled, owned, agreed⟩ agrees taken
    have move := step_move taken
    exact ⟨move.sound sound, move.enrolled sound enrolled,
      move.agreed sound enrolled owned agrees agreed⟩

theorem step_newAccepted {w w' : Actor H} {order : HashOrder H} {e : Event H} {hashes : List H}
    (delivered : w.message e = some (.newAccepted hashes)) (taken : w.step (order, e) = some w') :
    ∃ cells, w.sleet.newAccepted order hashes = some (cells, w'.sleet) ∧
      w'.hail = w.hail ++ [cells] := by
  cases e with
  | deliver i =>
    simp only [step, show w.mailbox[i]? = some (.newAccepted hashes) from delivered] at taken
    obtain ⟨⟨cells, s⟩, handled, rfl⟩ := Option.map_eq_some_iff.mp taken
    exact ⟨cells, handled, rfl⟩
  | _ => cases delivered

/-- In every run whose steps meet the condition, a `NewAccepted` message prunes accepted
transactions only, and their cells are sent to hail by the end of its handler. -/
theorem pruned_accepted (order : HashOrder H) (id : Id) (ip : SocketAddr)
    (peers : List (Id × SocketAddr)) (steps : List (Actor H × HashOrder H × Event H))
    (w : Actor H) (run : Run step (started (.new order id ip peers)) steps w)
    (meets : Meets (fun w x => w.Agrees x.1 x.2) steps) (order' : HashOrder H) (e : Event H)
    (hashes : List H) (w' : Actor H) (delivered : w.message e = some (.newAccepted hashes))
    (agrees : w.Agrees order' e) (taken : w.step (order', e) = some w') :
    ∃ cells s₁, Sleet.forwardCells order' hashes w.sleet = some (cells, s₁) ∧
      s₁.pruneAtAcceptedFrontier order' = some w'.sleet ∧ w'.hail = w.hail ++ [cells] ∧
      ∀ a ∈ s₁.dag.g, a ∉ w'.sleet.dag.g → ∃ tx, w'.sleet.knownTxs.lookup a = some tx ∧
        tx.status = .accepted ∧ tx.cell ∈ w'.hail.flatten := by
  have sound := Sound.run run
  have agreed := agreed_run run meets
  have told := accepting_some.mpr delivered
  obtain ⟨cells, handled, hail⟩ := step_newAccepted delivered taken
  obtain ⟨s₁, forward, pruned, sweep, sent⟩ := Sleet.newAccepted_sweep order' sound.keyed handled
  refine ⟨cells, s₁, forward, pruned, hail, fun a present gone => ?_⟩
  have linked₁ := sweep.linked sound.linked
  -- what is pruned has a child with a final ancestry
  obtain ⟨f, other, member, verdict⟩ := Sleet.prune_removed pruned present gone
  obtain ⟨c, inside, edge⟩ := Sleet.child_of_mem linked₁ member other
  have final := verdict.ancestor linked₁ inside
  have after := agreed.swept sound.linked sweep (agrees.closes hashes told)
  obtain ⟨tx, found, accepted⟩ := Option.map_eq_some_iff.mp (after.accepted c a edge final)
  have before := sweep.accepted found accepted
  refine ⟨tx, (Sleet.prune_some order' pruned).1 ▸ found, accepted, ?_⟩
  rw [hail, List.flatten_append, List.flatten_singleton, List.mem_append]
  rcases after.sent c a tx edge found accepted with waits | old
  · by_cases listed : a ∈ hashes
    · obtain ⟨tx', found', here⟩ := sent.sent a listed
      cases before.symm.trans found'
      exact .inr here
    · obtain ⟨tx', found', here⟩ := agrees.waits hashes told a waits listed c
        (sweep.parent c a edge) (sweep.closes sound.linked edge.mem final)
      cases before.symm.trans found'
      exact .inl here
  · exact .inl old

/-- A chain `a ← v ← v'`. The counters of `v` and `v'` are high enough, while that of `a`
was reset by a failed query. Then other children of `a` make `a` accepted, and `v` is
pruned as an ancestor of `v'` without ever being accepted. -/
theorem pruned_not_accepted :
    ¬ ∀ (steps : List (Actor Digest × HashOrder Digest × Event Digest)) (w w' : Actor Digest)
      (order : HashOrder Digest) (e : Event Digest) (hashes : List Digest)
      (cells : List (Cell Digest)) (s₁ : Sleet Digest), Run step sample steps w →
      w.message e = some (.newAccepted hashes) → w.step (order, e) = some w' →
      Sleet.forwardCells order hashes w.sleet = some (cells, s₁) →
        ∀ a ∈ s₁.dag.g, a ∉ w'.sleet.dag.g → w'.status a = some .accepted := by
  intro pruned
  let a := transfer [] 0
  let v := transfer [a] 1
  let v' := transfer [v] 2
  let below := (List.range 10).map fun i => transfer [v'] (i + 3)
  let others := (List.range 9).map fun i => transfer [a] (i + 13)
  let events := joins 22 :: poll 1 true (a :: v :: v' :: below.take 7) ++
    poll 11 false (others.take 1) ++ poll 12 true (below.drop 7 ++ others.drop 1)
  have found : (runSample events).any (fun r =>
      (r.2.accepting (.deliver 23)).any fun hashes =>
        (r.2.step (ascendingOrder, .deliver 23)).any fun w' =>
          (Sleet.forwardCells ascendingOrder hashes r.2.sleet).any fun q =>
            decide (v.hash ∈ q.2.dag.g ∧ v.hash ∉ w'.sleet.dag.g ∧
              w'.status v.hash = some .queried)) = true := by
    decide +kernel
  obtain ⟨steps, w, run, both⟩ := exec_any found
  obtain ⟨hashes, known, handled⟩ := (Option.any_eq_true _ _).mp both
  obtain ⟨w', taken, rest⟩ := (Option.any_eq_true _ _).mp handled
  obtain ⟨⟨cells, s₁⟩, forward, lost⟩ := (Option.any_eq_true _ _).mp rest
  obtain ⟨present, gone, queried⟩ := of_decide_eq_true lost
  have accepted := pruned steps w w' _ _ hashes cells s₁ run (accepting_some.mp known) taken forward
    v.hash present gone
  rw [show w'.status v.hash = some .queried from queried] at accepted
  cases accepted

/-- A condition that can be evaluated, for runs without conflicts. -/
abbrev Clear (order : HashOrder H) (w : Actor H) (e : Event H) : Prop :=
  w.fetched e = none ∧
  (∀ r ∈ w.receipts order e, r.1.conflictGraph.firstConflict r.2.cell = none) ∧
  (∀ root ∈ w.passing e, ∀ f ∈ w.sleet.dag.g.keys,
    (∀ a ∈ w.sleet.dag.dfs f, w.sleet.FinalAfter root a) → root ∉ w.sleet.dag.parents f ∧
      (w.sleet.Verdict f ∨ ∀ p ∈ w.sleet.dag.parents f, p ∈ w.sleet.dag.dfs root)) ∧
  ∀ hashes ∈ w.accepting e, w.sleet.Unopposed hashes ∧
    (∀ a ∈ posted w.mailbox, a ∈ hashes) ∧ ∀ f ∈ w.sleet.dag.g.keys,
      (∀ u ∈ w.sleet.dag.dfs f, w.status u = some .accepted ∨
        ∃ set ∈ w.sleet.conflictGraph.cs.lookup u, BETA1 ≤ set.cnt) → w.sleet.Verdict f

theorem Clear.agrees (clear : w.Clear order e) : w.Agrees order e where
  own root passing c edge after :=
    (clear.2.2.1 root passing c (Finmap.mem_keys.mpr edge.mem) after).1 (DAG.mem_parents.mpr edge)
  side root passing f p edge after :=
    (clear.2.2.1 root passing f (Finmap.mem_keys.mpr edge.mem) after).2.imp id
      fun parents => parents p (DAG.mem_parents.mpr edge)
  green r listed _ first found := by
    rw [clear.2.1 r listed] at found
    cases found
  closes hashes told f p edge _ closes := by
    obtain ⟨none_opposed, _, final⟩ := clear.2.2.2 hashes told
    refine .inl (final f (Finmap.mem_keys.mpr edge.mem) fun u member => ?_)
    have unswept : ¬ w.sleet.Swept hashes f := by
      rintro (rejected | ⟨r, rejected, _⟩)
      · exact none_opposed.not_rejects f rejected
      · exact none_opposed.not_rejects r rejected
    rcases closes.2.resolve_left unswept u member with accepted | ⟨_, _, set, found, high⟩
    · exact .inl accepted
    · refine .inr ⟨set, found, ?_⟩
      rcases high with ⟨_, high⟩ | high
      · exact high
      · exact le_trans (by decide) high
  waits hashes told a waiting absent := absurd ((clear.2.2.2 hashes told).2.1 a waiting) absent
  fetched tx stored := by
    rw [clear.1] at stored
    cases stored

theorem pruned_accepted_chain :
    ∃ (steps : List (Actor Digest × HashOrder Digest × Event Digest)) (w w' : Actor Digest)
      (cells : List (Cell Digest)) (s₁ : Sleet Digest), Run step sample steps w ∧
      s₁.pruneAtAcceptedFrontier ascendingOrder = some w'.sleet ∧ w'.hail = w.hail ++ [cells] ∧
      (∃ a ∈ s₁.dag.g, a ∉ w'.sleet.dag.g) ∧
      ∀ a ∈ s₁.dag.g, a ∉ w'.sleet.dag.g → ∃ tx, w'.sleet.knownTxs.lookup a = some tx ∧
        tx.status = .accepted ∧ tx.cell ∈ w'.hail.flatten := by
  let t := transfer [] 0
  let u := transfer [t] 1
  let children := (List.range 10).map fun i => transfer [u] (i + 2)
  let events := joins 12 :: poll 1 true (t :: u :: children.take 9) ++ [.deliver 12] ++
    poll 12 true (children.drop 9)
  have found : (runSample events).any (fun r =>
      (r.2.accepting (.deliver 13)).any fun hashes =>
        (r.2.step (ascendingOrder, .deliver 13)).any fun w' =>
          (Sleet.forwardCells ascendingOrder hashes r.2.sleet).any fun q =>
            decide (t.hash ∈ q.2.dag.g ∧ t.hash ∉ w'.sleet.dag.g ∧
              r.2.Clear ascendingOrder (.deliver 13)) &&
                r.1.all fun x => x.1.Clear x.2.1 x.2.2) = true := by
    decide +kernel
  obtain ⟨steps, w, run, both⟩ := exec_any found
  obtain ⟨hashes, known, handled⟩ := (Option.any_eq_true _ _).mp both
  obtain ⟨w', taken, rest⟩ := (Option.any_eq_true _ _).mp handled
  obtain ⟨⟨cells, s₁⟩, forward, all⟩ := (Option.any_eq_true _ _).mp rest
  obtain ⟨pruned, checked⟩ := (Bool.and_eq_true _ _).mp all
  obtain ⟨present, gone, next⟩ := of_decide_eq_true pruned
  have meets : Meets (fun w x => w.Agrees x.1 x.2) steps := fun x hx =>
    Clear.agrees (of_decide_eq_true (List.all_eq_true.mp checked x hx))
  obtain ⟨cells', s₁', forward', done, hail, accepted⟩ := pruned_accepted _ _ _ _ steps w run meets
    ascendingOrder _ hashes w' (accepting_some.mp known) next.agrees taken
  obtain ⟨rfl, rfl⟩ : cells = cells' ∧ s₁ = s₁' :=
    Prod.mk.inj (Option.some.inj (forward.symm.trans forward'))
  exact ⟨steps, w, w', cells, s₁, run, done, hail, ⟨t.hash, present, gone⟩, accepted⟩

end Actor
end Subzero
