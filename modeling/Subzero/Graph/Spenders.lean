import Subzero.Graph.ConflictGraph

/-! The loops of the conflict graph over cell ids, and what each of them leaves
recorded as the spenders of an id. -/
namespace Subzero.ConflictGraph
variable {H : Type} [DecidableEq H]

def spendersAt (vertices : HashMap (CellId H) (VertexData H)) (id : CellId H) : Finset H :=
  match vertices.lookup id with
  | some data => data.spenders
  | none => ∅

theorem addAccepted_lookup (ids : List (CellId H)) (vs : HashMap (CellId H) (VertexData H))
    (id : CellId H) :
    (addAccepted ids vs).lookup id =
      if id ∈ ids ∧ id ∉ vs then some ⟨∅, .accepted⟩ else vs.lookup id := by
  unfold addAccepted
  induction ids generalizing vs with
  | nil => simp
  | cons a ids ih =>
    rw [List.foldl_cons, ih]
    by_cases ha : a ∈ vs
    · by_cases hid : id = a
      · subst hid; simp [ha]
      · simp [ha, hid]
    · rw [if_neg ha, HashMap.lookup_insert_ite]
      by_cases hid : id = a
      · subst hid; simp [ha]
      · simp [hid]

theorem addAccepted_mem (ids : List (CellId H)) (vs : HashMap (CellId H) (VertexData H))
    (id : CellId H) : id ∈ addAccepted ids vs ↔ id ∈ vs ∨ id ∈ ids := by
  rw [← Finmap.lookup_isSome, ← Finmap.lookup_isSome, addAccepted_lookup]
  by_cases hid : id ∈ ids <;> by_cases hv : id ∈ vs <;>
    simp [hid, hv, Finmap.lookup_isSome]

theorem addAccepted_spenders (ids : List (CellId H)) (vs : HashMap (CellId H) (VertexData H))
    (id : CellId H) : spendersAt (addAccepted ids vs) id = spendersAt vs id := by
  unfold spendersAt
  rw [addAccepted_lookup]
  by_cases hid : id ∈ ids ∧ id ∉ vs
  · have absent : vs.lookup id = none := Finmap.lookup_eq_none.mpr hid.2
    simp [hid, absent]
  · rw [if_neg hid]

theorem spendersAt_insert (vs : HashMap (CellId H) (VertexData H)) (a : CellId H)
    (data : VertexData H) (id : CellId H) :
    spendersAt (vs.insert a data) id = if id = a then data.spenders else spendersAt vs id := by
  unfold spendersAt
  rw [HashMap.lookup_insert_ite]
  by_cases same : id = a <;> simp [same]

/-- However far the loop gets, the ids stay, and the only new spender is the cell itself, on
ids that it consumes. -/
structure Spent (hash : H) (ids : List (CellId H)) (vs vs' : HashMap (CellId H) (VertexData H)) :
    Prop where
  mem : ∀ id, id ∈ vs' ↔ id ∈ vs
  spenders : ∀ id h, h ∈ spendersAt vs' id → h ∈ spendersAt vs id ∨ h = hash ∧ id ∈ ids
  kept : ∀ id h, h ∈ spendersAt vs id → h ∈ spendersAt vs' id

theorem spend_spent (hash : H) (ids : List (CellId H)) (vs : HashMap (CellId H) (VertexData H))
    (conflicts : Finset H) : ((spend hash ids vs conflicts).1 = true ↔ ∀ id ∈ ids, id ∈ vs) ∧
      Spent hash ids vs (spend hash ids vs conflicts).2.1 := by
  induction ids generalizing vs conflicts with
  | nil => exact ⟨by simp [spend], fun _ => .rfl, fun _ _ => .inl, fun _ _ => id⟩
  | cons a ids ih =>
    unfold spend
    split
    · rename_i unknown
      have absent : a ∉ vs := Finmap.lookup_eq_none.mp unknown
      exact ⟨by simp [absent], fun _ => .rfl, fun _ _ => .inl, fun _ _ => id⟩
    · rename_i data found
      have present : a ∈ vs := Finmap.mem_of_lookup_eq_some found
      have own : spendersAt vs a = data.spenders := by simp [spendersAt, found]
      have same : ∀ id, id ∈ vs.insert a { data with spenders := insert hash data.spenders } ↔
          id ∈ vs := by
        intro id
        rw [Finmap.mem_insert, or_iff_right_of_imp]
        rintro rfl
        exact present
      obtain ⟨flag, rest⟩ := ih (vs.insert a { data with spenders := insert hash data.spenders })
        (conflicts ∪ data.spenders)
      refine ⟨?_, fun id => (rest.mem id).trans (same id), fun id h later => ?_,
        fun id h old => rest.kept id h ?_⟩
      · simp only [flag, same, List.forall_mem_cons, present, true_and]
      · rcases rest.spenders id h later with old | ⟨rfl, listed⟩
        · rw [spendersAt_insert] at old
          split at old
          · rename_i here
            subst here
            rcases Finset.mem_insert.mp old with rfl | old
            · exact .inr ⟨rfl, List.mem_cons_self⟩
            · exact .inl (own ▸ old)
          · exact .inl old
        · exact .inr ⟨rfl, List.mem_cons_of_mem a listed⟩
      · rw [spendersAt_insert]
        split
        · rename_i here
          subst here
          exact Finset.mem_insert_of_mem (own ▸ old)
        · exact old

/-- The ids are distinct, so no round sees the spender of an earlier one. -/
theorem spend_ok {hash : H} {ids : List (CellId H)} (nodup : ids.Nodup)
    {vs vs' : HashMap (CellId H) (VertexData H)} {conflicts conflicts' : Finset H}
    (h : spend hash ids vs conflicts = (true, vs', conflicts')) :
    (∀ id, spendersAt vs' id =
      if id ∈ ids then insert hash (spendersAt vs id) else spendersAt vs id) ∧
      ∀ k, k ∈ conflicts' ↔ k ∈ conflicts ∨ ∃ id ∈ ids, k ∈ spendersAt vs id := by
  induction ids generalizing vs conflicts with
  | nil => cases h; simp
  | cons a ids ih =>
    unfold spend at h
    split at h
    · cases h
    · rename_i data found
      obtain ⟨fresh, nodup⟩ := List.nodup_cons.mp nodup
      obtain ⟨spenders, conflicting⟩ := ih nodup h
      have own : spendersAt vs a = data.spenders := by simp [spendersAt, found]
      constructor
      · intro id
        rw [spenders, spendersAt_insert]
        by_cases same : id = a
        · subst same
          simp [fresh, own]
        · simp [same]
      · intro k
        rw [conflicting, Finset.mem_union]
        have rest : (∃ id ∈ ids, k ∈ spendersAt
            (vs.insert a { data with spenders := insert hash data.spenders }) id) ↔
              ∃ id ∈ ids, k ∈ spendersAt vs id := by
          refine exists_congr fun id => and_congr_right fun listed => ?_
          have other : id ≠ a := by rintro rfl; exact fresh listed
          rw [spendersAt_insert, if_neg other]
        simp only [rest, List.mem_cons, exists_eq_or_imp, own, or_assoc]

theorem produce_lookup (ids : List (CellId H)) (vs : HashMap (CellId H) (VertexData H))
    (id : CellId H) :
    (produce ids vs).lookup id = if id ∈ ids then some ⟨∅, .pending⟩ else vs.lookup id := by
  unfold produce
  induction ids generalizing vs with
  | nil => simp
  | cons a ids ih =>
    rw [List.foldl_cons, ih, HashMap.lookup_insert_ite]
    by_cases h : id ∈ ids <;> by_cases ha : id = a <;> simp [h, ha]

theorem setStatus_spenders (status : OutputStatus) (ids : List (CellId H))
    (vs : HashMap (CellId H) (VertexData H)) (id : CellId H) :
    spendersAt (HashMap.updateKeys (fun data => { data with status := status }) ids vs).2 id =
      spendersAt vs id := by
  obtain ⟨n, hn⟩ := HashMap.updateKeys_lookup_iterate
    (fun data : VertexData H => { data with status := status }) ids vs id
  have keep : ∀ (n : Nat) (data : VertexData H),
      ((fun data : VertexData H => { data with status := status })^[n] data).spenders =
        data.spenders := by
    intro n
    induction n with
    | zero => exact fun _ => rfl
    | succ n ih => exact fun data => by rw [Function.iterate_succ_apply, ih]
  unfold spendersAt
  rw [hn]
  cases vs.lookup id <;> simp [keep]

end Subzero.ConflictGraph
