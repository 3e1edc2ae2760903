import Subzero.Graph.Representation

/-! Refused insertions into the conflict graph. The cell is stored before its inputs are
looked up, and it is never taken out again: it has no conflict set by which it could be
removed, it cannot be inserted another time, and it may stand as a spender in the way of
other cells. -/
namespace Subzero.ConflictGraph
variable {H : Type} [DecidableEq H] [Blake3 H]
variable {cell : Cell H} {c : ConflictGraph H} {order : HashOrder H}

/-- An insertion that fails leaves the graph as it was. -/
def Atomic (c : ConflictGraph H) : HashOrder H × Call H → Prop
  | (order, .insertCell cell) => ∀ e c', c.insertCell order cell = .err e c' → c' = c
  | _ => True

/-- A cell is inserted that is there already, or one that is new and spends known ids. -/
def Sourced (c : ConflictGraph H) : HashOrder H × Call H → Prop
  | (_, .insertCell cell) => c.cells.lookup cell.hash = some cell ∨
      cell.hash ∉ c.cells ∧ ∀ id ∈ cell.consumed, id ∈ c.vertices
  | _ => True

instance (c : ConflictGraph H) (x : HashOrder H × Call H) : Decidable (Sourced c x) :=
  match x with
  | (_, .insertCell _) => inferInstanceAs (Decidable (_ ∨ _))
  | (_, .append _) => .isTrue trivial
  | (_, .acceptCell _) => .isTrue trivial
  | (_, .removeCell _) => .isTrue trivial
  | (_, .updateConflictSet _ _ _) => .isTrue trivial
  | (_, .resetCount _) => .isTrue trivial

theorem insertCell_duplicate (order : HashOrder H) (stored : cell.hash ∈ c.cells) :
    insertCell order c cell =
      .err .duplicateCell { c with cells := c.cells.insert cell.hash cell } := by
  unfold insertCell
  exact if_pos (Finmap.lookup_isSome.mpr stored)

/-- An unknown input is found when the cell is stored already. -/
theorem insertCell_unknown (order : HashOrder H) (fresh : cell.hash ∉ c.cells)
    (unknown : ¬ ∀ id ∈ cell.consumed, id ∈ c.vertices) :
    ∃ vertices, insertCell order c cell = .err .undefinedCell
      { c with cells := c.cells.insert cell.hash cell, vertices := vertices } := by
  have flag := (spend_spent cell.hash (order.cellIds.list cell.consumed) c.vertices ∅).1
  unfold insertCell
  simp only [Finmap.lookup_eq_none.mpr fresh, Option.isSome_none, Bool.false_eq_true, if_false]
  cases spent : spend cell.hash (order.cellIds.list cell.consumed) c.vertices ∅ with
  | mk done rest =>
    rw [spent] at flag
    cases done with
    | false => exact ⟨_, rfl⟩
    | true =>
      refine absurd (fun id consumes => ?_) unknown
      exact flag.mp rfl id ((order.cellIds.mem _ _).mpr consumes)

/-- A new cell that spends known ids is not refused. -/
theorem insertCell_sourced (order : HashOrder H) {c c' : ConflictGraph H} {e : GraphError H}
    (fresh : cell.hash ∉ c.cells) (known : ∀ id ∈ cell.consumed, id ∈ c.vertices) :
    insertCell order c cell ≠ .err e c' := by
  have flag := (spend_spent cell.hash (order.cellIds.list cell.consumed) c.vertices ∅).1.mpr
    fun id listed => known id ((order.cellIds.mem _ _).mp listed)
  unfold insertCell
  simp only [Finmap.lookup_eq_none.mpr fresh, Option.isSome_none, Bool.false_eq_true, if_false]
  cases spent : spend cell.hash (order.cellIds.list cell.consumed) c.vertices ∅ with
  | mk done rest =>
    rw [spent] at flag
    cases flag
    simp only
    split <;> simp

/-- A cell that is not in the graph cannot be refused without a trace. -/
theorem atomic_iff_sourced (c : ConflictGraph H) (x : HashOrder H × Call H) :
    Atomic c x ↔ Sourced c x := by
  obtain ⟨order, x⟩ := x
  cases x with
  | insertCell cell =>
    by_cases stored : cell.hash ∈ c.cells
    · have failed := insertCell_duplicate order stored
      have rewritten : c.cells.insert cell.hash cell = c.cells ↔
          c.cells.lookup cell.hash = some cell := by
        constructor
        · intro same
          rw [← same, Finmap.lookup_insert]
        · intro same
          refine Finmap.ext_lookup fun k => ?_
          rw [HashMap.lookup_insert_ite]
          split
          · rename_i here
            rw [here, same]
          · rfl
      simp only [Sourced, stored, not_true_eq_false, false_and, or_false, ← rewritten]
      constructor
      · intro atomic
        exact congrArg ConflictGraph.cells (atomic _ _ failed)
      · intro same e c' failed'
        rw [failed, same] at failed'
        cases failed'
        rfl
    · have absent : c.cells.lookup cell.hash ≠ some cell := by
        rw [Finmap.lookup_eq_none.mpr stored]
        simp
      by_cases known : ∀ id ∈ cell.consumed, id ∈ c.vertices
      · exact iff_of_true (fun e c' failed => absurd failed (insertCell_sourced order stored known))
          (.inr ⟨stored, known⟩)
      · refine iff_of_false (fun atomic => ?_) (by simp [Sourced, absent, known])
        obtain ⟨vertices, failed⟩ := insertCell_unknown order stored known
        have cells := congrArg ConflictGraph.cells (atomic _ _ failed)
        exact stored (cells ▸ Finmap.mem_insert.mpr (.inl rfl))
  | append _ => exact Iff.rfl
  | acceptCell _ => exact Iff.rfl
  | removeCell _ => exact Iff.rfl
  | updateConflictSet _ _ _ => exact Iff.rfl
  | resetCount _ => exact Iff.rfl

/-- A call that fails without storing a cell keeps the indexes in line. -/
theorem Indexed.callAny {c c' : ConflictGraph H} {x : HashOrder H × Call H} (inv : Indexed c)
    (sourced : Sourced c x) (taken : c.callAny x = some c') : Indexed c' := by
  obtain ⟨order, x⟩ := x
  rcases callAny_cases inv.consistent taken with ⟨done, _⟩ | ⟨failed, cut | ⟨cell, rfl, _⟩⟩
  · exact inv.call done
  · have listed := inv.cut_listed cut
    exact ⟨cut.consistent inv.consistent, cut.total inv.total, listed.1, listed.2⟩
  · simp only [ConflictGraph.callAny, callOk, ConflictGraph.call] at taken failed
    cases result : insertCell order c cell with
    | ok u c₁ =>
      rw [result] at failed
      contradiction
    | err e c₁ =>
      rw [result] at taken
      cases taken
      rw [(atomic_iff_sourced c _).mpr sourced e c' result]
      exact inv
    | panic =>
      rw [result] at taken
      contradiction

theorem Indexed.insertCell_ok (inv : Indexed c) (order : HashOrder H) (fresh : cell.hash ∉ c.cells)
    (known : ∀ id ∈ cell.consumed, id ∈ c.vertices) :
    ∃ c', insertCell order c cell = .ok () c' := by
  cases result : insertCell order c cell with
  | ok u c' => exact ⟨c', rfl⟩
  | err e c' => exact absurd result (insertCell_sourced order fresh known)
  | panic => exact absurd result (inv.insertCell_returns order cell)

/-- Along a run no refused insertion leaves a trace exactly if all inserted cells are there
already or spend known ids. Then no insertion panics at any time, and every new cell goes
in once its inputs are known. -/
theorem insertions_atomic (order : HashOrder H) (genesis : Finset (CellId H))
    {steps : List (ConflictGraph H × HashOrder H × Call H)} {c : ConflictGraph H}
    (run : Run callAny (new order genesis) steps c) :
    (Meets Atomic steps ↔ Meets Sourced steps) ∧
      (Meets Sourced steps → ∀ s ∈ states steps c, ∀ order cell,
        insertCell order s cell ≠ .panic ∧
        (cell.hash ∉ s.cells → (∀ id ∈ cell.consumed, id ∈ s.vertices) →
          ∃ s', insertCell order s cell = .ok () s')) := by
  constructor
  · exact forall₂_congr fun x _ => atomic_iff_sourced x.1 x.2
  · intro sourced s state order' cell
    have all := run.relates Sourced sourced Indexed (fun _ _ => True) (.new order genesis)
      (fun _ => trivial) (fun _ _ _ _ _ => trivial)
      fun _ _ _ inv guard taken => ⟨inv.callAny guard taken, trivial⟩
    have inv := (all.2 s state).1
    exact ⟨inv.insertCell_returns order' cell, inv.insertCell_ok order'⟩

/-- A duplicate is refused, and a removal and an acceptance find nothing. -/
theorem insertions_atomic_duplicate :
    ∃ (steps : List (ConflictGraph Digest × HashOrder Digest × Call Digest))
      (c : ConflictGraph Digest),
      Run callAny (new ascendingOrder {coin (mint 1)}) steps c ∧
      (steps.map fun x => (x.1.callOk x.2).isSome) = [true, false, false] ∧ Meets Atomic steps ∧
      ∀ s ∈ states steps c, ∀ order cell, insertCell order s cell ≠ .panic := by
  let t := pay [mint 1] 2
  have found : (exec callAny (new ascendingOrder {coin (mint 1)})
      [(ascendingOrder, .insertCell t), (ascendingOrder, .insertCell t),
        (ascendingOrder, .removeCell (mint 3).hash)]).any (fun r =>
          decide ((r.1.map fun x => (x.1.callOk x.2).isSome) = [true, false, false] ∧
            ∀ x ∈ r.1, Sourced x.1 x.2)) = true := by
    decide +kernel
  obtain ⟨steps, c, run, facts⟩ := exec_any found
  obtain ⟨results, sourced⟩ := of_decide_eq_true facts
  have atomic := insertions_atomic ascendingOrder _ run
  exact ⟨steps, c, run, results, atomic.1.mpr sourced,
    fun s state order cell => (atomic.2 sourced s state order cell).1⟩

/-- Of the two inputs of a cell one is unknown when it is first inserted. When both are
known it is refused as a duplicate, and another spender of its known input panics. -/
theorem insertCell_refused_panics :
    ∃ (steps : List (ConflictGraph Digest × HashOrder Digest × Call Digest))
      (c c₁ : ConflictGraph Digest),
      insertCell ascendingOrder (new ascendingOrder {coin (mint 1)}) (pay [mint 1, mint 2] 3) =
        .err .undefinedCell c₁ ∧ (pay [mint 1, mint 2] 3).hash ∈ c₁.cells ∧
      Run callAny (new ascendingOrder {coin (mint 1)}) steps c ∧
      (∀ id ∈ (pay [mint 1, mint 2] 3).consumed, id ∈ c.vertices) ∧
      (∃ c₂, insertCell ascendingOrder c (pay [mint 1, mint 2] 3) = .err .duplicateCell c₂) ∧
      insertCell ascendingOrder c (pay [mint 1] 4) = .panic := by
  let x := pay [mint 1, mint 2] 3
  have found : (exec callAny (new ascendingOrder {coin (mint 1)})
      [(ascendingOrder, .insertCell x), (ascendingOrder, .append {coin (mint 2)})]).any (fun r =>
        decide (x.hash ∈ r.2.cells ∧ (∀ id ∈ x.consumed, id ∈ r.2.vertices) ∧
          (insertCell ascendingOrder r.2 (pay [mint 1] 4)).state?.isNone)) = true := by
    decide +kernel
  obtain ⟨steps, c, run, facts⟩ := exec_any found
  obtain ⟨stored, known, panics⟩ := of_decide_eq_true facts
  have unknown : ¬ ∀ id ∈ x.consumed,
      id ∈ (new ascendingOrder {coin (mint 1)} : ConflictGraph Digest).vertices := by
    decide +kernel
  obtain ⟨vertices, refused⟩ := insertCell_unknown ascendingOrder Finmap.notMem_empty unknown
  refine ⟨steps, c, _, refused, Finmap.mem_insert.mpr (.inl rfl), run, known,
    ⟨_, insertCell_duplicate ascendingOrder stored⟩, ?_⟩
  exact Outcome.state?_eq_none.mp (Option.isNone_iff_eq_none.mp panics)

/-- A cell with a conflict set is stored and has a place in the insertion order. This holds
after failing calls too. -/
def Enrolled (c : ConflictGraph H) : Prop := ∀ h ∈ c.cs, h ∈ c.cells ∧ h ∈ c.insertionOrder

theorem Enrolled.inserted {c c' : ConflictGraph H} (enrolled : Enrolled c) {u : Unit}
    (done : insertCell order c cell = .ok u c') : Inserted c cell c' :=
  insertCell_inserted (fun h seated => (enrolled h seated).1) done

/-- A cell goes in if it is new, spends known ids, and all its conflicts have a set. -/
theorem Enrolled.insertCell_ok_iff (enrolled : Enrolled c) (order : HashOrder H) (cell : Cell H) :
    (∃ c', insertCell order c cell = .ok () c') ↔ cell.hash ∉ c.cells ∧
      (∀ id ∈ cell.consumed, id ∈ c.vertices) ∧ ∀ k ∈ c.conflictsOf cell, k ∈ c.cs := by
  constructor
  · rintro ⟨c', done⟩
    have ins := enrolled.inserted done
    exact ⟨ins.fresh, ins.known, ins.linked⟩
  · rintro ⟨fresh, known, linked⟩
    cases result : insertCell order c cell with
    | ok u c' => exact ⟨c', rfl⟩
    | err e c' => exact absurd result (insertCell_sourced order fresh known)
    | panic =>
      have listed : ∀ k ∈ c.conflictsOf cell, k ∈ c.insertionOrder := fun k conflict =>
        (enrolled k (linked k conflict)).2
      exact absurd result (insertCell_linked order linked listed)

section Enrolled
variable {c c' : ConflictGraph H}

omit [Blake3 H] in
theorem Enrolled.new (order : HashOrder H) (genesis : Finset (CellId H)) :
    Enrolled (new order genesis : ConflictGraph H) :=
  fun _ seated => absurd seated Finmap.notMem_empty

omit [Blake3 H] in
theorem Enrolled.retuned (enrolled : Enrolled c) (same : Retuned c c')
    (order : c'.insertionOrder = c.insertionOrder) : Enrolled c' := by
  intro h seated
  rw [same.cells, order]
  exact enrolled h (same.mem_cs.mp seated)

/-- A refused cell gets no place in the order. -/
theorem insertCell_refused_order {e : GraphError H} (failed : insertCell order c cell = .err e c') :
    c'.insertionOrder = c.insertionOrder := by
  simp only [insertCell] at failed
  split at failed
  · cases failed
    rfl
  · split at failed
    · cases failed
      rfl
    · split at failed <;> contradiction

theorem Enrolled.insertCell (enrolled : Enrolled c)
    (left : (insertCell order c cell).state? = some c') : Enrolled c' := by
  intro h seated
  rcases insertCell_cases order (fun h seated => (enrolled h seated).1) left with
    ⟨done, ins⟩ | ⟨⟨e, failed⟩, refused⟩
  · rw [ins.cells, insertCell_order done, Finmap.mem_insert, List.mem_append, List.mem_singleton]
    rcases ins.mem_cs.mp seated with rfl | old
    · exact ⟨.inl rfl, .inr rfl⟩
    · exact ⟨.inr (enrolled h old).1, .inl (enrolled h old).2⟩
  · rw [refused.cs] at seated
    rw [refused.cells, insertCell_refused_order failed, Finmap.mem_insert]
    exact ⟨.inr (enrolled h seated).1, (enrolled h seated).2⟩

/-- A removal takes its cell out of all three indexes, and no other cell. -/
theorem Enrolled.removeCell {hash : H} (enrolled : Enrolled c)
    (left : (removeCell order c hash).state? = some c') :
    Enrolled c' ∧ ∀ k ∈ c.cs, k ≠ hash → k ∈ c'.cs := by
  unfold ConflictGraph.removeCell at left
  split at left
  · cases left
    exact ⟨enrolled, fun _ seated _ => seated⟩
  · rename_i set known
    split at left
    · contradiction
    · cases left
      have nodup := (order.hashes.nodup set.conflicts).filter fun k => decide (k ≠ hash)
      have sets : ∀ k, k ∈ unlink hash ((order.hashes.list set.conflicts).filter (· ≠ hash)) c.cs ↔
          k ∈ c.cs := by
        intro k
        rw [← Finmap.lookup_isSome, unlink_lookup hash _ nodup, ← Finmap.lookup_isSome]
        split <;> simp
      constructor
      · intro k seated
        obtain ⟨other, seated⟩ := Finmap.mem_erase.mp seated
        obtain ⟨stored, listed⟩ := enrolled k ((sets k).mp seated)
        exact ⟨Finmap.mem_erase.mpr ⟨other, stored⟩,
          List.mem_filter.mpr ⟨listed, by simpa using other⟩⟩
      · exact fun k seated other => Finmap.mem_erase.mpr ⟨other, (sets k).mpr seated⟩

theorem Enrolled.acceptCell (enrolled : Enrolled c)
    (left : (acceptCell order c cell).state? = some c') : Enrolled c' := by
  unfold ConflictGraph.acceptCell at left
  simp only at left
  split at left
  · contradiction
  · rename_i vertices _
    split at left
    · cases left
      exact enrolled
    · rename_i set known
      have seated : cell.hash ∈ c.cs := Finmap.mem_of_lookup_eq_some known
      -- the accepted cell is not among those that the loop removes
      have loop : ∀ c₁, (Outcome.forEach (fun other c => ConflictGraph.removeCell order c other)
          ((order.hashes.list set.conflicts).filter (· ≠ cell.hash))
            { c with vertices := vertices }).state? = some c₁ →
          Enrolled c₁ ∧ cell.hash ∈ c₁.cs := by
        intro c₁ removed
        refine Outcome.forEach_rel (fun c c' => Enrolled c ∧ cell.hash ∈ c.cs →
          Enrolled c' ∧ cell.hash ∈ c'.cs) (fun _ => id) (fun _ _ _ first second => second ∘ first)
          _ _ ?_ _ c₁ removed ⟨enrolled, seated⟩
        rintro other listed c c' round ⟨enrolled, seated⟩
        obtain ⟨after, keeps⟩ := enrolled.removeCell round
        have apart : other ≠ cell.hash := of_decide_eq_true (List.mem_filter.mp listed).2
        exact ⟨after, keeps _ seated apart.symm⟩
      rcases Outcome.state?_bind left with stopped | ⟨_, c₁, removed, last⟩
      · exact (loop c' stopped).1
      · obtain ⟨after, kept⟩ := loop c₁ (congrArg Outcome.state? removed)
        cases last
        intro k member
        rcases Finmap.mem_insert.mp member with rfl | old
        · exact after _ kept
        · exact after k old

/-- A call that is not an insertion keeps the cells enrolled, whether or not it fails. -/
theorem Calls.enrolled (calls : Calls c c') (enrolled : Enrolled c) : Enrolled c' := by
  have mutated : ∀ {c c' : ConflictGraph H} {hash : H} {f : ConflictSet H → ConflictSet H},
      (c.mutateSet hash f).state? = some c' → Enrolled c → Enrolled c' := by
    intro c c' hash f left enrolled
    rcases mutateSet_cases left with ⟨rfl, _⟩ | ⟨set, known, rfl, _⟩
    · exact enrolled
    · intro k member
      rcases Finmap.mem_insert.mp member with rfl | old
      · exact enrolled k (Finmap.mem_of_lookup_eq_some known)
      · exact enrolled k old
  induction calls with
  | refl => exact enrolled
  | tail _ last ih =>
    obtain ⟨order, x, other, taken⟩ := last
    cases x with
    | append ids => cases taken; exact ih
    | insertCell cell => exact absurd rfl (other cell)
    | acceptCell cell =>
      have accepted := taken
      rw [callAny, call, Outcome.state?_bind_ok] at accepted
      exact ih.acceptCell accepted
    | removeCell hash => exact (ih.removeCell taken).1
    | updateConflictSet hash d1 d2 => exact mutated taken ih
    | resetCount hash => exact mutated taken ih

end Enrolled
end Subzero.ConflictGraph
