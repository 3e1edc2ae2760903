import Subzero.Sleet.Accepted

/-! Pruning at the accepted frontier. It goes by the counters of the whole DAG, while
the status and the message to hail come from the ancestry of one queried transaction.
So a transaction can be final for the one and not for the other. -/
namespace Subzero
variable {H : Type} [DecidableEq H] [Blake3 H]

namespace Sleet

/-- A transaction that is final once the conflicts are gone: its counter is high
enough, with the lower threshold if no more than one of its conflicts remains. -/
def Settled (s : Sleet H) (hashes : List H) (v : H) : Prop :=
  s.knownTxs.status v = some .accepted ∨
    s.knownTxs.status v ≠ some .removed ∧ s.knownTxs.status v ≠ some .rejected ∧
      ∃ set ∈ s.conflictGraph.cs.lookup v,
        (∀ x ∈ set.conflicts, ∀ y ∈ set.conflicts, ¬ s.Swept hashes x → ¬ s.Swept hashes y →
          x = y) ∧ BETA1 ≤ set.cnt ∨ BETA2 ≤ set.cnt

omit [Blake3 H] in
/-- Every vertex of the frontier has a final ancestry. -/
theorem frontier_final {order : HashOrder H} {s s' : Sleet H}
    (done : s.computeAcceptedFrontier order = some s') :
    s' = { s with acceptedFrontier := s'.acceptedFrontier } ∧
      ∀ f ∈ s'.acceptedFrontier, ∀ a ∈ s.dag.dfs f, s.Final a := by
  obtain ⟨last, visited, rfl⟩ := Option.map_eq_some_iff.mp done
  refine ⟨rfl, ?_⟩
  refine (foldlM_invariant (fun f => s.Remembers f.memo ∧
    ∀ v ∈ f.accepted, ∀ a ∈ s.dag.dfs v, s.Final a) ⟨fun h b found => ?_, by simp⟩ ?_ visited).2
  · simp at found
  · intro hash _ f f' sound visit
    unfold visitFrontier at visit
    split at visit
    · cases visit
      exact sound
    · obtain ⟨⟨res, memo⟩, verdict, eq⟩ := Option.map_eq_some_iff.mp visit
      obtain ⟨final, remembers⟩ := isAcceptedMemo_verdict sound.1 verdict
      cases res with
      | false =>
        cases eq
        exact ⟨remembers, sound.2⟩
      | true =>
        cases eq
        refine ⟨remembers, fun v member => ?_⟩
        rcases Finset.mem_insert.mp member with rfl | old
        · exact final.mp rfl
        · exact sound.2 v old

omit [Blake3 H] in
/-- The vertices that are pruned are proper ancestors of vertices with a final ancestry. -/
theorem prune_drops {order : HashOrder H} {s s' : Sleet H}
    (done : s.pruneAtAcceptedFrontier order = some s') :
    ∃ (l : List H) (s₁ : Sleet H), s₁.dag = s.dag ∧ s' = l.foldl dropVx s₁ ∧
      ∀ a ∈ l, ∃ f, a ≠ f ∧ a ∈ s.dag.dfs f ∧ s.Verdict f := by
  obtain ⟨s₁, computed, rfl⟩ := Option.map_eq_some_iff.mp done
  obtain ⟨same, final⟩ := frontier_final computed
  have dag : s₁.dag = s.dag := by rw [same]
  refine ⟨_, s₁, dag, rfl, fun a listed => ?_⟩
  obtain ⟨member, inside⟩ := List.mem_filter.mp listed
  obtain ⟨f, frontier, path⟩ := Finset.mem_biUnion.mp ((order.hashes.mem _ _).mp member)
  rw [dag, List.mem_toFinset] at path
  refine ⟨f, ?_, path, final f frontier⟩
  rintro rfl
  simp [frontier] at inside

omit [Blake3 H] in
theorem prune_removed {order : HashOrder H} {s s' : Sleet H}
    (done : s.pruneAtAcceptedFrontier order = some s') {a : H} (present : a ∈ s.dag.g)
    (gone : a ∉ s'.dag.g) : ∃ f, a ≠ f ∧ a ∈ s.dag.dfs f ∧ s.Verdict f := by
  obtain ⟨l, s₁, dag, rfl, dropped⟩ := prune_drops done
  obtain ⟨d, eq, _, others⟩ := dropAll_dag l s₁
  by_contra outside
  refine gone ?_
  rw [eq]
  exact others a (fun listed => outside (dropped a listed)) (dag ▸ present)

section
variable {s s₁ : Sleet H} {hashes : List H}

/-- What is final after the removal of conflicts was settled before. -/
theorem Sweep.final_settled (sweep : Sweep (s.Rejects hashes) (s.Removes hashes) s s₁) {v : H}
    (final : s₁.Final v) :
    s₁.knownTxs.lookup v = s.knownTxs.lookup v ∧ s.Settled hashes v := by
  have same : s₁.knownTxs.lookup v = s.knownTxs.lookup v := by
    have alive : s₁.knownTxs.status v ≠ some .rejected ∧ s₁.knownTxs.status v ≠ some .removed := by
      rcases final with accepted | ⟨removed, rejected, _⟩
      · simp [accepted]
      · exact ⟨rejected, removed⟩
    rcases sweep.txs v with same | ⟨_, marked⟩ | ⟨_, marked⟩
    · exact same
    all_goals
      cases found : s.knownTxs.lookup v with
      | none => rw [marked, found]; rfl
      | some tx =>
        rw [found] at marked
        simp [TxDb.status, marked, mark] at alive
  have status : s₁.knownTxs.status v = s.knownTxs.status v := by simp only [TxDb.status, same]
  refine ⟨same, ?_⟩
  unfold Settled
  rw [← status]
  rcases final with accepted | ⟨removed, rejected, set', found, enough⟩
  · exact .inl accepted
  obtain ⟨set, there, cnt, _, keep⟩ := sweep.sets.below v set' found
  refine .inr ⟨removed, rejected, set, there, ?_⟩
  rw [← cnt]
  rcases enough with ⟨single, high⟩ | high
  case inr => exact .inr high
  refine .inl ⟨?_, high⟩
  intro x hx y hy unsweptX unsweptY
  have one : set'.conflicts.card = 1 := by simpa [ConflictSet.isSingleton] using single
  exact Finset.card_le_one.mp one.le x (keep x hx (.inr unsweptX)) y
    (keep y hy (.inr unsweptY))

/-- The ancestry of a vertex that is not swept is not swept either. -/
theorem Sweep.ancestor (sweep : Sweep (s.Rejects hashes) (s.Removes hashes) s s₁)
    (linked : s.dag.Linked) {f u : H} (unswept : ¬ s.Swept hashes f) (path : s.dag.Ancestor f u) :
    s₁.dag.Ancestor f u ∧ ¬ s.Swept hashes u := by
  induction path with
  | refl => exact ⟨.refl, unswept⟩
  | @tail v p _ edge ih =>
    have apart : ¬ s.Swept hashes p := by
      rintro (rejected | ⟨r, rejected, progeny⟩)
      · exact ih.2 (Or.inr ⟨p, rejected, .single (linked.back v p edge)⟩)
      · exact ih.2 (Or.inr ⟨r, rejected, progeny.tail (linked.back v p edge)⟩)
    exact ⟨ih.1.tail (sweep.keep v p ih.2 apart edge), apart⟩

end
end Sleet
end Subzero
