import Subzero.Graph.Mirror
import Subzero.Sleet.Pruning
import Subzero.Sleet.RemoveConflicts

/-! What is taken out of both graphs while a `NewAccepted` message is handled. The removal
of conflicts takes the same transactions out of the DAG and out of the conflict graph,
wherever it stops. Pruning takes vertices out of the DAG alone. -/
namespace Subzero.Sleet
variable {H : Type} [DecidableEq H] [Blake3 H]

/-- `W` is taken out of both graphs. A conflict set that stays loses no more than `W`, and
it keeps its preference or turns to its own transaction. -/
structure Trims (W : Finset H) (s s' : Sleet H) : Prop where
  dag : s.dag.Cut W s'.dag
  mem : ∀ k, k ∈ s'.conflictGraph.cs ↔ k ∈ s.conflictGraph.cs ∧ k ∉ W
  sets : ∀ k set', s'.conflictGraph.cs.lookup k = some set' →
    ∃ set, s.conflictGraph.cs.lookup k = some set ∧ (set'.pref = k ∨ set'.pref = set.pref) ∧
      set'.conflicts ⊆ set.conflicts ∧ ∀ x ∈ set.conflicts, x ∉ W → x ∈ set'.conflicts

section
omit [Blake3 H]
variable {W W' : Finset H} {s s₁ s' : Sleet H}

theorem Trims.of_cut (dag : s.dag.Cut W s'.dag)
    (cut : s.conflictGraph.Cut W s'.conflictGraph) : Trims W s s' := by
  refine ⟨dag, fun k => ?_, fun k set' found => ?_⟩
  · simp only [Finmap.mem_iff, cut.cs]
    by_cases inside : k ∈ W <;> cases s.conflictGraph.cs.lookup k <;> simp [inside]
  · obtain ⟨set, there, _, rfl⟩ := cut.sets found
    refine ⟨set, there, .inr rfl, Finset.sdiff_subset, fun x member outside => ?_⟩
    exact Finset.mem_sdiff.mpr ⟨member, outside⟩

theorem Trims.refl (s : Sleet H) : Trims ∅ s s := .of_cut (.refl _) (.refl _)

theorem Trims.trans (first : Trims W s s₁) (second : Trims W' s₁ s') : Trims (W ∪ W') s s' := by
  refine ⟨first.dag.trans second.dag, fun k => ?_, fun k set' found => ?_⟩
  · rw [second.mem, first.mem, Finset.mem_union, not_or, and_assoc]
  · obtain ⟨set₁, there₁, pref₁, sub₁, keep₁⟩ := second.sets k set' found
    obtain ⟨set, there, pref, sub, keep⟩ := first.sets k set₁ there₁
    refine ⟨set, there, ?_, sub₁.trans sub, fun x member outside => ?_⟩
    · rcases pref₁ with own | same
      · exact .inl own
      · rw [same]
        exact pref
    · rw [Finset.mem_union, not_or] at outside
      exact keep₁ x (keep x member outside.1) outside.2

end

theorem removeProgeny_trims (order : HashOrder H) {n : Nat} {queue : List H} {s s' : Sleet H}
    (transposed : s.dag.Transposed) (consistent : s.conflictGraph.Consistent)
    (left : (removeProgeny order n queue s).state? = some s') : ∃ W, Trims W s s' := by
  induction n generalizing queue s with
  | zero => cases left
  | succ n ih =>
    cases queue with
    | nil => cases left; exact ⟨∅, .refl _⟩
    | cons hash queue =>
      obtain rfl | ⟨db, _, ⟨e, c, cell, rfl⟩ | ⟨c, d, next, cell, vertex, _, left⟩⟩ :=
        removeProgeny_round left
      · exact ⟨∅, .refl _⟩
      · obtain ⟨same, _⟩ | ⟨done, _⟩ :=
          ConflictGraph.removeCell_cases order consistent (congrArg Outcome.state? cell)
        · exact ⟨∅, .of_cut (.refl _) (same ▸ .refl _)⟩
        · rw [cell] at done
          cases done
      · have cut : s.conflictGraph.Cut {hash} c := by
          obtain ⟨_, missing⟩ | ⟨_, cut⟩ :=
            ConflictGraph.removeCell_cases order consistent (congrArg Outcome.state? cell)
          · simp [ConflictGraph.removeCell, missing] at cell
          · exact cut
        -- the vertex is gone afterwards, and the loop goes on from a smaller state
        have gone := (DAG.removeVx_gone transposed vertex).1
        obtain ⟨W, trims⟩ := ih (gone.transposed transposed) (cut.consistent consistent) left
        have round : Trims {hash} s { s with knownTxs := db, conflictGraph := c, dag := d } :=
          .of_cut gone cut
        exact ⟨_, round.trans trims⟩

omit [Blake3 H] in
theorem Rejected.trims {s s₁ : Sleet H} {t : H} {set : ConflictSet H}
    (own : t ∈ set.conflicts) (rejected : s.Rejected t set s₁) :
    Trims (set.conflicts.erase t) s s₁ := by
  have lookup := rejected.settled.cs
  have known := rejected.settled.known
  refine ⟨rejected.wiped.dag, fun k => ?_, fun k set' found => ?_⟩
  · simp only [Finmap.mem_iff, lookup]
    by_cases here : k = t
    · subst here
      simp [known]
    · by_cases conflict : k ∈ set.conflicts <;> cases s.conflictGraph.cs.lookup k <;>
        simp [here, conflict]
  · rw [lookup] at found
    by_cases here : k = t
    · rw [if_pos here] at found
      cases found
      subst here
      refine ⟨set, known, .inl rfl, ?_, fun x member outside => ?_⟩
      · exact Finset.singleton_subset_iff.mpr own
      · by_contra other
        exact outside (Finset.mem_erase.mpr ⟨fun eq => other (by simp [eq,
          ConflictGraph.acceptedSet, ConflictSet.new]), member⟩)
    · rw [if_neg here] at found
      split at found
      · cases found
      · obtain ⟨old, there, rfl⟩ := Option.map_eq_some_iff.mp found
        refine ⟨old, there, .inr rfl, Finset.sdiff_subset, fun x member outside => ?_⟩
        exact Finset.mem_sdiff.mpr ⟨member, outside⟩

/-- The conflicts of the transaction `t` were taken out, and its set, if it is still
there, prefers it. -/
def Wins (W : Finset H) (s s' : Sleet H) (t : H) : Prop :=
  ∀ set, s.conflictGraph.cs.lookup t = some set → set.conflicts.erase t ⊆ W ∧
    ∀ set', s'.conflictGraph.cs.lookup t = some set' → set'.pref = t

section Wins
variable {s s₁ s' : Sleet H} {W₁ W₂ : Finset H} {t : H}

omit [Blake3 H] in
/-- What is taken out later leaves the preference as it is. -/
theorem Wins.then_trims (wins : Wins W₁ s s₁ t) (trims : Trims W₂ s₁ s') :
    Wins (W₁ ∪ W₂) s s' t := by
  intro set found
  obtain ⟨gone, pref⟩ := wins set found
  refine ⟨gone.trans Finset.subset_union_left, fun set' found' => ?_⟩
  obtain ⟨set₁, there, own | same, _⟩ := trims.sets _ set' found'
  · exact own
  · rw [same]
    exact pref set₁ there

omit [Blake3 H] in
/-- Conflicts that were taken out before need not be taken out again. -/
theorem Trims.then_wins (trims : Trims W₁ s s₁) (outside : t ∉ W₁) (wins : Wins W₂ s₁ s' t) :
    Wins (W₁ ∪ W₂) s s' t := by
  intro set found
  obtain ⟨set₁, found₁⟩ := Finmap.mem_iff.mp
    ((trims.mem t).mpr ⟨Finmap.mem_of_lookup_eq_some found, outside⟩)
  obtain ⟨old, there, _, _, keep⟩ := trims.sets t set₁ found₁
  obtain rfl : set = old := Option.mem_unique found there
  obtain ⟨gone, pref⟩ := wins set₁ found₁
  refine ⟨fun x member => Finset.mem_union.mpr ?_, pref⟩
  obtain ⟨ne, conflict⟩ := Finset.mem_erase.mp member
  by_cases before : x ∈ W₁
  · exact .inl before
  · exact .inr (gone (Finset.mem_erase.mpr ⟨ne, keep x conflict before⟩))

end Wins

theorem removeConflicts_trims (order : HashOrder H)
    (injective : Function.Injective (Cell.hash : Cell H → H)) {s s' : Sleet H} {tx : Tx H}
    (transposed : s.dag.Transposed) (consistent : s.conflictGraph.Consistent)
    (there : ∀ set, s.conflictGraph.cs.lookup tx.hash = some set →
      ∀ r ∈ set.conflicts.erase tx.hash, r ∈ s.knownTxs ∧ r ∈ s.dag.g)
    (left : (s.removeConflicts order tx).state? = some s') :
    ∃ W, Trims W s s' ∧ Wins W s s' tx.hash := by
  cases known : s.conflictGraph.cs.lookup tx.hash with
  | none =>
    unfold removeConflicts at left
    cases accepted : s.conflictGraph.acceptCell order tx.cell with
    | panic => simp [accepted, Outcome.lift] at left
    | ok rejected c =>
      obtain ⟨_, _, failed⟩ | ⟨set, settled, _⟩ :=
        ConflictGraph.acceptCell_cases order consistent (congrArg Outcome.state? accepted)
      · rw [accepted] at failed
        cases failed
      · cases settled.known.symm.trans known
    | err e c =>
      simp only [accepted, Outcome.lift, Outcome.bind_err] at left
      cases left
      obtain ⟨_, cut, _⟩ | ⟨set, _, done⟩ :=
        ConflictGraph.acceptCell_cases order consistent (congrArg Outcome.state? accepted)
      · exact ⟨∅, .of_cut (.refl _) cut, fun set found => by rw [known] at found; cases found⟩
      · rw [accepted] at done
        cases done
  | some set =>
    have stored : s.conflictGraph.cells.lookup tx.hash = some tx.cell := by
      obtain ⟨cell, found, _⟩ := consistent.stored _ set known
      rw [found, injective (consistent.hashed _ cell found)]
    obtain ⟨s₁, rejected, eq⟩ :=
      removeConflicts_rejected order transposed consistent stored known (there set known)
    rw [eq] at left
    have first := rejected.trims (consistent.own _ set known)
    obtain ⟨W, second⟩ := removeProgeny_trims order (first.dag.transposed transposed)
      (rejected.settled.consistent consistent) left
    have wins : Wins (set.conflicts.erase tx.hash) s s₁ tx.hash := by
      intro set₀ found₀
      obtain rfl : set = set₀ := Option.mem_unique known found₀
      refine ⟨subset_rfl, fun set₁ there₁ => ?_⟩
      rw [rejected.settled.cs, if_pos rfl] at there₁
      cases there₁
      rfl
    exact ⟨_, first.trans second, wins.then_trims second⟩

theorem forwardCells_trims (order : HashOrder H)
    (injective : Function.Injective (Cell.hash : Cell H → H)) {hashes : List H} {s s' : Sleet H}
    {cells : List (Cell H)} (keyed : s.Keyed) (transposed : s.dag.Transposed)
    (consistent : s.conflictGraph.Consistent)
    (there : ∀ r, s.Rejects hashes r → r ∈ s.knownTxs ∧ r ∈ s.dag.g)
    (done : forwardCells order hashes s = some (cells, s')) :
    ∃ W, Trims W s s' ∧ ∀ t ∈ hashes, t ∉ W → Wins W s s' t := by
  induction hashes generalizing s cells with
  | nil =>
    cases done
    exact ⟨∅, .refl _, by simp⟩
  | cons t hashes ih =>
    unfold forwardCells TxDb.getTx at done
    cases stored : s.knownTxs.lookup t with
    | none => simp [stored] at done
    | some tx =>
    simp only [stored] at done
    split at done
    · cases done
    rename_i s₁ removed
    obtain ⟨⟨cells₁, s₂⟩, rest, eq⟩ := Option.map_eq_some_iff.mp done
    cases eq
    obtain rfl : tx.hash = t := keyed t tx stored
    obtain ⟨W₁, trims₁, wins₁⟩ := removeConflicts_trims order injective transposed consistent
      (fun set known r member => there r ⟨_, List.mem_cons_self, set, known,
        (Finset.mem_erase.mp member).symm⟩) removed
    have sweep : Sweep (fun _ => True) (fun _ => True) s s₁ :=
      removeConflicts_sweep order (fun _ _ _ _ _ => trivial) (fun _ _ _ _ => trivial) removed
    have consistent₁ := sweep.calls.consistent consistent
    -- a conflict that still has a set was not taken out
    have there₁ : ∀ r, s₁.Rejects hashes r → r ∈ s₁.knownTxs ∧ r ∈ s₁.dag.g := by
      rintro r ⟨u, listed, set₁, found₁, conflict, ne⟩
      obtain ⟨set, found, _, sub, _⟩ := trims₁.sets u set₁ found₁
      obtain ⟨known, present⟩ :=
        there r ⟨u, List.mem_cons_of_mem _ listed, set, found, sub conflict, ne⟩
      obtain ⟨other, seated, _⟩ := consistent₁.symm u set₁ found₁ r conflict
      have outside := ((trims₁.mem r).mp (Finmap.mem_of_lookup_eq_some seated)).2
      exact ⟨sweep.known known, trims₁.dag.g.mem.mpr ⟨present, outside⟩⟩
    obtain ⟨W₂, trims₂, wins₂⟩ := ih (sweep.keyed keyed) (trims₁.dag.transposed transposed)
      consistent₁ there₁ rest
    refine ⟨_, trims₁.trans trims₂, fun u listed outside => ?_⟩
    rw [Finset.mem_union, not_or] at outside
    rcases List.mem_cons.mp listed with rfl | later
    · exact wins₁.then_trims trims₂
    · exact trims₁.then_wins outside.1 (wins₂ u later outside.2)

omit [Blake3 H] in
theorem dropAll_cut (hashes : List H) {s : Sleet H} (transposed : s.dag.Transposed) :
    s.dag.Cut hashes.toFinset (hashes.foldl dropVx s).dag ∧
      (hashes.foldl dropVx s).dag.chits = s.dag.chits := by
  induction hashes generalizing s with
  | nil => exact ⟨.refl _, rfl⟩
  | cons a hashes ih =>
    obtain ⟨d, eq, removed⟩ := dropVx_dag s a
    obtain ⟨cut, chits⟩ := DAG.removeVx_gone transposed removed
    rw [List.foldl_cons, eq, List.toFinset_cons, Finset.insert_eq]
    obtain ⟨cut', chits'⟩ := @ih { s with dag := d } (cut.transposed transposed)
    exact ⟨cut.trans cut', chits'.trans chits⟩

omit [Blake3 H] in
theorem prune_cut {order : HashOrder H} {s s' : Sleet H} (transposed : s.dag.Transposed)
    (done : s.pruneAtAcceptedFrontier order = some s') :
    ∃ W, s.dag.Cut W s'.dag ∧ s'.dag.chits = s.dag.chits := by
  obtain ⟨s₁, computed, rfl⟩ := Option.map_eq_some_iff.mp done
  obtain ⟨f, _, rfl⟩ := Option.map_eq_some_iff.mp computed
  exact ⟨_, @dropAll_cut _ _ _ { s with acceptedFrontier := f.accepted } transposed⟩

end Subzero.Sleet
