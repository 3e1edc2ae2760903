import Subzero.Graph.Detection

/-! The indexes of the conflict graph describe the same cells after any successful
calls, so that no lookup that the code takes for granted can fail. -/
namespace Subzero.ConflictGraph
variable {H : Type} [DecidableEq H] [Blake3 H]
variable {c : ConflictGraph H} {cell : Cell H}

/-- The cells, their conflict sets and the insertion order have the same elements. The
conflict relation is reflexive and symmetric on them, and spenders are among them. -/
structure Representation (c : ConflictGraph H) : Prop where
  keys : c.cs.keys = c.cells.keys
  order : c.insertionOrder.toFinset = c.cells.keys
  nodup : c.insertionOrder.Nodup
  own : ∀ h set, c.cs.lookup h = some set → h ∈ set.conflicts
  present : ∀ h set, c.cs.lookup h = some set → ∀ k ∈ set.conflicts, k ∈ c.cells
  symm : ∀ h k set other, c.cs.lookup h = some set → c.cs.lookup k = some other →
    k ∈ set.conflicts → h ∈ other.conflicts
  spender : ∀ id data, c.vertices.lookup id = some data → ∀ h ∈ data.spenders,
    ∃ cell, c.cells.lookup h = some cell ∧ id ∈ cell.consumed

/-- What calls keep, in the form in which they keep it. -/
structure Indexed (c : ConflictGraph H) : Prop where
  consistent : Consistent c
  total : ∀ h ∈ c.cells, h ∈ c.cs
  listed : ∀ h, h ∈ c.insertionOrder ↔ h ∈ c.cells
  nodup : c.insertionOrder.Nodup

theorem Indexed.representation (inv : Indexed c) : Representation c := by
  have ok := inv.consistent
  constructor
  · ext h
    rw [Finmap.mem_keys, Finmap.mem_keys]
    exact ⟨ok.cs_cells h, inv.total h⟩
  · ext h
    rw [List.mem_toFinset, Finmap.mem_keys, inv.listed]
  · exact inv.nodup
  · exact ok.own
  · intro h set known k member
    obtain ⟨other, there, _⟩ := ok.symm h set known k member
    exact ok.cs_cells k (Finmap.mem_of_lookup_eq_some there)
  · intro h k set other known there member
    obtain ⟨other', there', back⟩ := ok.symm h set known k member
    cases Option.some.inj (there.symm.trans there')
    exact back
  · intro id data found h member
    apply ok.spender id h
    simpa [spendersAt, found] using member

theorem Indexed.new (order : HashOrder H) (genesis : Finset (CellId H)) :
    Indexed (new order genesis : ConflictGraph H) where
  consistent := new_consistent order genesis
  total h member := absurd member Finmap.notMem_empty
  listed h := iff_of_false (by simp [ConflictGraph.new]) Finmap.notMem_empty
  nodup := List.nodup_nil

/-- A cell that goes in is last in the insertion order. -/
theorem insertCell_order {order : HashOrder H} {c c' : ConflictGraph H}
    (done : insertCell order c cell = .ok () c') :
    c'.insertionOrder = c.insertionOrder ++ [cell.hash] := by
  simp only [insertCell] at done
  split at done
  · contradiction
  · split at done
    · contradiction
    · split at done
      · contradiction
      · cases done
        rfl

section Listed
variable {c c' : ConflictGraph H}

theorem Indexed.cut_listed {R : Finset H} (inv : Indexed c) (cut : Cut R c c') :
    (∀ h, h ∈ c'.insertionOrder ↔ h ∈ c'.cells) ∧ c'.insertionOrder.Nodup := by
  constructor
  · intro h
    rw [cut.order, List.mem_filter, inv.listed, ← Finmap.lookup_isSome, ← Finmap.lookup_isSome,
      cut.cells]
    by_cases gone : h ∈ R <;> simp [gone]
  · rw [cut.order]
    exact inv.nodup.filter _

theorem Indexed.insertCell_listed {order : HashOrder H} (inv : Indexed c) (ins : Inserted c cell c')
    (done : insertCell order c cell = .ok () c') :
    (∀ h, h ∈ c'.insertionOrder ↔ h ∈ c'.cells) ∧ c'.insertionOrder.Nodup := by
  rw [insertCell_order done, ins.cells]
  constructor
  · intro h
    rw [List.mem_append, List.mem_singleton, inv.listed, Finmap.mem_insert, or_comm]
  · have absent : cell.hash ∉ c.insertionOrder := fun h => ins.fresh ((inv.listed _).mp h)
    rw [← List.concat_eq_append]
    exact inv.nodup.concat absent

end Listed

/-- A successful call keeps the indexes in line. -/
theorem Indexed.call {c c' : ConflictGraph H} {x : HashOrder H × Call H} (inv : Indexed c)
    (taken : c.callOk x = some c') : Indexed c' := by
  obtain ⟨order, x⟩ := x
  have effect := callOk_effect inv.consistent taken
  have listed : (∀ h, h ∈ c'.insertionOrder ↔ h ∈ c'.cells) ∧ c'.insertionOrder.Nodup := by
    cases effect with
    | append order ids => exact ⟨inv.listed, inv.nodup⟩
    | @insertCell cell c' ins =>
      have done : c.insertCell order cell = .ok () c' := by
        obtain ⟨⟨_, c₁⟩, unwrapped, rfl⟩ := Option.map_eq_some_iff.mp taken
        exact Outcome.unwrap_eq_some.mp unwrapped
      exact inv.insertCell_listed ins done
    | acceptCell settled =>
      obtain ⟨c₁, cut, rfl⟩ := settled.cut
      have listed := inv.cut_listed cut
      exact listed
    | removeCell cut => exact inv.cut_listed cut
    | updateConflictSet known => exact ⟨inv.listed, inv.nodup⟩
    | resetCount known => exact ⟨inv.listed, inv.nodup⟩
  exact ⟨effect.consistent inv.consistent, effect.total inv.consistent inv.total,
    listed.1, listed.2⟩

omit [Blake3 H] in
/-- The links are made if every conflict has a set and a place in the order. -/
theorem linkConflicts_isSome (order : HashOrder H) (hash : H) {conflicts : Finset H}
    (sets : ∀ k ∈ conflicts, k ∈ c.cs) (listed : ∀ k ∈ conflicts, k ∈ c.insertionOrder) :
    linkConflicts order c hash conflicts ≠ none := by
  let join : ConflictSet H → ConflictSet H := fun set =>
    { set with conflicts := insert hash set.conflicts }
  obtain ⟨cs, written, mem⟩ := HashMap.updateKeys_total join fun k hk =>
    sets k ((order.hashes.mem conflicts k).mp hk)
  unfold linkConflicts
  rw [show HashMap.updateKeys (fun set => { set with conflicts := insert hash set.conflicts })
    (order.hashes.list conflicts) c.cs = (true, cs) from written]
  simp only
  split
  · simp
  · rename_i conflicting
    obtain ⟨k, hk⟩ := Finset.nonempty_iff_ne_empty.mpr conflicting
    split
    · rename_i missing
      have absent := List.find?_eq_none.mp missing k (listed k hk)
      simp [hk] at absent
    · rename_i first found
      have member : first ∈ conflicts := by simpa using List.find?_some found
      split
      · rename_i unset
        exact absurd ((mem first).mpr (sets first member)) (Finmap.lookup_eq_none.mp unset)
      · simp

/-- An insertion does not panic if every conflict has a set and a place in the order. -/
theorem insertCell_linked (order : HashOrder H) (sets : ∀ k ∈ c.conflictsOf cell, k ∈ c.cs)
    (listed : ∀ k ∈ c.conflictsOf cell, k ∈ c.insertionOrder) :
    insertCell order c cell ≠ .panic := by
  unfold insertCell
  simp only
  split
  · simp
  · split
    · simp
    · rename_i vs conflicts spent
      obtain ⟨_, found⟩ := spend_ok (order.cellIds.nodup cell.consumed) spent
      have conflict : ∀ k ∈ conflicts, k ∈ c.conflictsOf cell := by
        intro k hk
        obtain ⟨id, consumes, member⟩ := ((found k).mp hk).resolve_left (by simp)
        exact mem_conflictsOf.mpr ⟨id, (order.cellIds.mem _ _).mp consumes, member⟩
      split
      · rename_i unlinked
        refine absurd unlinked (linkConflicts_isSome order _ ?_ ?_)
        · exact fun k hk => sets k (conflict k hk)
        · exact fun k hk => List.mem_append_left _ (listed k (conflict k hk))
      · simp

theorem Indexed.insertCell_returns (inv : Indexed c) (order : HashOrder H) (cell : Cell H) :
    insertCell order c cell ≠ .panic := by
  -- a conflict is a recorded spender, hence a present cell
  have present : ∀ k ∈ c.conflictsOf cell, k ∈ c.cells := by
    intro k conflict
    obtain ⟨id, _, member⟩ := mem_conflictsOf.mp conflict
    obtain ⟨other, stored, _⟩ := inv.consistent.spender id k member
    exact Finmap.mem_of_lookup_eq_some stored
  apply insertCell_linked order
  · exact fun k conflict => inv.total k (present k conflict)
  · exact fun k conflict => (inv.listed k).mpr (present k conflict)

theorem Indexed.acceptCell_returns (inv : Indexed c) (order : HashOrder H)
    (stored : c.cells.lookup cell.hash = some cell) : acceptCell order c cell ≠ .panic := by
  have member := inv.total _ (Finmap.mem_of_lookup_eq_some stored)
  obtain ⟨set, known⟩ := Finmap.mem_iff.mp member
  obtain ⟨c', _, done⟩ := acceptCell_ok order inv.consistent stored known
  rw [done]
  simp

theorem Indexed.removeCell_returns (inv : Indexed c) (order : HashOrder H) (hash : H) :
    removeCell order c hash ≠ .panic := by
  cases known : c.cs.lookup hash with
  | none => simp [removeCell, known]
  | some set =>
    obtain ⟨c', done, _⟩ := removeCell_cut order inv.consistent known
    rw [done]
    simp

/-- After any successful calls the indexes agree, and no insertion, no removal and no
acceptance of a present cell panics. -/
theorem representation_invariant (order : HashOrder H) (genesis : Finset (CellId H))
    {steps : List (ConflictGraph H × HashOrder H × Call H)} {c : ConflictGraph H}
    (run : Run callOk (new order genesis) steps c) :
    Representation c ∧ (∀ order cell, insertCell order c cell ≠ .panic) ∧
    (∀ order cell, c.cells.lookup cell.hash = some cell → acceptCell order c cell ≠ .panic) ∧
    ∀ order hash, removeCell order c hash ≠ .panic := by
  have inv : Indexed c := run.invariant (fun _ _ => True) (fun _ _ => trivial) Indexed
    (.new order genesis) (fun _ _ _ inv _ taken => inv.call taken)
  exact ⟨inv.representation, inv.insertCell_returns,
    fun order _ stored => inv.acceptCell_returns order stored, inv.removeCell_returns⟩

/-- Two spenders of one output, of which one is accepted, and a cell that is removed and
inserted again. -/
theorem representation_invariant_reinserted :
    ∃ (steps : List (ConflictGraph Digest × HashOrder Digest × Call Digest))
      (c : ConflictGraph Digest),
      Run callOk (new ascendingOrder {coin (mint 1)}) steps c ∧ steps.length = 6 ∧
      c.insertionOrder = [(pay [pay [mint 1] 2] 3).hash, (pay [mint 1] 2).hash] ∧
      Representation c := by
  let t := pay [mint 1] 2
  let u := pay [t] 3
  let w := pay [t] 4
  have found : (exec callOk (new ascendingOrder {coin (mint 1)})
      [(ascendingOrder, .insertCell t), (ascendingOrder, .insertCell u),
        (ascendingOrder, .insertCell w), (ascendingOrder, .acceptCell u),
        (ascendingOrder, .removeCell t.hash), (ascendingOrder, .insertCell t)]).any (fun r =>
          decide (r.1.length = 6 ∧ r.2.insertionOrder = [u.hash, t.hash])) = true := by
    decide +kernel
  obtain ⟨steps, c, run, facts⟩ := exec_any found
  obtain ⟨six, listed⟩ := of_decide_eq_true facts
  exact ⟨steps, c, run, six, listed, (representation_invariant ascendingOrder _ run).1⟩

/-- The acceptance of a cell with conflict set `set` takes the cells `removed` out of every
index and leaves the others as they were, up to the removed conflicts. -/
structure Resolved (c : ConflictGraph H) (hash : H) (set : ConflictSet H) (removed : List H)
    (c' : ConflictGraph H) : Prop where
  nodup : removed.Nodup
  conflicts : ∀ h, h ∈ removed ↔ h ∈ set.conflicts ∧ h ≠ hash
  cells : ∀ h, c'.cells.lookup h = if h ∈ removed then none else c.cells.lookup h
  cs : ∀ h, h ∈ c'.cs ↔ h ∈ c.cs ∧ h ∉ removed
  order : c'.insertionOrder = c.insertionOrder.filter (· ∉ removed)
  own : c'.cs.lookup hash = some ⟨{hash}, hash, hash, set.cnt⟩
  others : ∀ h old, h ≠ hash → h ∉ removed → c.cs.lookup h = some old →
    c'.cs.lookup h = some ⟨old.conflicts \ removed.toFinset, old.pref, old.last, old.cnt⟩

omit [Blake3 H] in
theorem Settled.resolved {c c' : ConflictGraph H} {hash : H} {set : ConflictSet H}
    {removed : List H} (settled : Settled c hash set c') (nodup : removed.Nodup)
    (conflicts : ∀ h, h ∈ removed ↔ h ∈ set.conflicts ∧ h ≠ hash) :
    Resolved c hash set removed c' := by
  have same : set.conflicts.erase hash = removed.toFinset := by
    ext h
    rw [Finset.mem_erase, List.mem_toFinset, conflicts, and_comm]
  have sets := settled.cs
  obtain ⟨c₁, cut, eq⟩ := settled.cut
  have own : hash ∉ removed := fun h => ((conflicts hash).mp h).2 rfl
  rw [same] at sets cut
  refine ⟨nodup, conflicts, fun h => ?_, fun h => ?_, ?_, ?_, fun h old other kept known => ?_⟩
  · rw [eq]
    simpa only [List.mem_toFinset] using cut.cells h
  · rw [Finmap.mem_iff, Finmap.mem_iff, sets]
    by_cases here : h = hash
    · rw [here, if_pos rfl]
      exact iff_of_true ⟨_, rfl⟩ ⟨⟨set, settled.known⟩, own⟩
    · have inside : h ∈ removed ↔ h ∈ set.conflicts := by simp [conflicts, here]
      by_cases gone : h ∈ set.conflicts <;> simp [here, inside, gone]
  · rw [eq]
    simpa only [List.mem_toFinset] using cut.order
  · rw [sets, if_pos rfl]
    rfl
  · have outside : h ∉ set.conflicts := fun inside => kept ((conflicts h).mpr ⟨inside, other⟩)
    rw [sets, if_neg other, if_neg outside, known]
    rfl

/-- After any successful calls the acceptance of a present cell returns its conflicts, each
once, and removes exactly them. -/
theorem acceptCell_removes_conflicts (order : HashOrder H) (genesis : Finset (CellId H))
    {steps : List (ConflictGraph H × HashOrder H × Call H)} {c : ConflictGraph H}
    (run : Run callOk (new order genesis) steps c) (order' : HashOrder H) {cell : Cell H}
    (present : c.cells.lookup cell.hash = some cell) :
    ∃ set removed c', c.cs.lookup cell.hash = some set ∧
      acceptCell order' c cell = .ok removed c' ∧ Resolved c cell.hash set removed c' := by
  have inv : Indexed c := run.invariant (fun _ _ => True) (fun _ _ => trivial) Indexed
    (.new order genesis) (fun _ _ _ inv _ taken => inv.call taken)
  have member := inv.total _ (Finmap.mem_of_lookup_eq_some present)
  obtain ⟨set, known⟩ := Finmap.mem_iff.mp member
  obtain ⟨c', settled, done⟩ := acceptCell_ok order' inv.consistent present known
  refine ⟨set, _, c', known, done, settled.resolved ?_ fun h => ?_⟩
  · exact (order'.hashes.nodup set.conflicts).filter _
  · rw [List.mem_filter, order'.hashes.mem, decide_eq_true_eq]

/-- The accepted cell spends one of two outputs that a second cell spends both, and the
second output has a third spender, which is a bystander. -/
theorem acceptCell_removes_conflicts_bystander :
    ∃ (steps : List (ConflictGraph Digest × HashOrder Digest × Call Digest))
      (c : ConflictGraph Digest),
      Run callOk (new ascendingOrder {coin (mint 1), coin (mint 2)}) steps c ∧
      c.insertionOrder = [(pay [mint 1] 3).hash, (pay [mint 1, mint 2] 4).hash,
        (pay [mint 2] 5).hash] ∧
      ∃ set removed c', acceptCell ascendingOrder c (pay [mint 1] 3) = .ok removed c' ∧
        Resolved c (pay [mint 1] 3).hash set removed c' := by
  let t := pay [mint 1] 3
  let u := pay [mint 1, mint 2] 4
  let w := pay [mint 2] 5
  have found : (exec callOk (new ascendingOrder {coin (mint 1), coin (mint 2)})
      [(ascendingOrder, .insertCell t), (ascendingOrder, .insertCell u),
        (ascendingOrder, .insertCell w)]).any (fun r =>
          decide (r.2.insertionOrder = [t.hash, u.hash, w.hash] ∧
            r.2.cells.lookup t.hash = some t)) = true := by
    decide +kernel
  obtain ⟨steps, c, run, facts⟩ := exec_any found
  obtain ⟨listed, present⟩ := of_decide_eq_true facts
  obtain ⟨set, removed, c', _, done, resolved⟩ :=
    acceptCell_removes_conflicts ascendingOrder _ run ascendingOrder present
  exact ⟨steps, c, run, listed, set, removed, c', done, resolved⟩

end Subzero.ConflictGraph
