import Subzero.Graph.Spenders

/-! What the operations of the conflict graph do, said once for each of them. In a
consistent graph a removal succeeds on every cell that has a conflict set, and it
is a cut: the cell is gone from the cells, the conflict sets and the spenders. -/
namespace Subzero
variable {H : Type} [DecidableEq H] [Blake3 H]
variable {c c' : ConflictGraph H} {R : Finset H} {hash : H}

def ConflictSet.without (R : Finset H) (set : ConflictSet H) : ConflictSet H :=
  { set with conflicts := set.conflicts \ R }

namespace ConflictGraph

/-- The cells recorded as spenders of the ids that a cell consumes. -/
def conflictsOf (c : ConflictGraph H) (cell : Cell H) : Finset H :=
  cell.consumed.biUnion (spendersAt c.vertices)

/-- The conflict set of the conflict that was inserted first. -/
def firstConflict (c : ConflictGraph H) (cell : Cell H) : Option (ConflictSet H) :=
  (c.insertionOrder.find? (· ∈ c.conflictsOf cell)).bind c.cs.lookup

/-- The conflict set with which a cell enters the graph. -/
def freshSet (c : ConflictGraph H) (cell : Cell H) : ConflictSet H :=
  match c.firstConflict cell with
  | none => .new cell.hash
  | some first => ownSet cell.hash (c.conflictsOf cell) first

theorem mem_conflictsOf {cell : Cell H} {h : H} :
    h ∈ c.conflictsOf cell ↔ ∃ id ∈ cell.consumed, h ∈ spendersAt c.vertices id := by
  simp [conflictsOf]

/-- What holds of a conflict graph after any calls, failing ones included. A cell
whose insertion failed has no conflict set, but it stays stored. -/
structure Consistent (c : ConflictGraph H) : Prop where
  hashed : ∀ h cell, c.cells.lookup h = some cell → cell.hash = h
  spender : ∀ id h, h ∈ spendersAt c.vertices id →
    ∃ cell, c.cells.lookup h = some cell ∧ id ∈ cell.consumed
  stored : ∀ h set, c.cs.lookup h = some set → ∃ cell, c.cells.lookup h = some cell ∧
    ∀ id, id ∈ cell.consumed ∨ id ∈ cell.produced → id ∈ c.vertices
  own : ∀ h set, c.cs.lookup h = some set → h ∈ set.conflicts
  symm : ∀ h set, c.cs.lookup h = some set → ∀ k ∈ set.conflicts,
    ∃ other, c.cs.lookup k = some other ∧ h ∈ other.conflicts

/-- `c'` is `c` without the cells `R`. -/
structure Cut (R : Finset H) (c c' : ConflictGraph H) : Prop where
  cells : ∀ k, c'.cells.lookup k = if k ∈ R then none else c.cells.lookup k
  cs : ∀ k, c'.cs.lookup k = if k ∈ R then none else (c.cs.lookup k).map (.without R)
  spenders : ∀ id, spendersAt c'.vertices id = spendersAt c.vertices id \ R
  ids : ∀ id, id ∈ c'.vertices ↔ id ∈ c.vertices
  order : c'.insertionOrder = c.insertionOrder.filter (· ∉ R)

section Cut
omit [Blake3 H]

theorem Cut.refl (c : ConflictGraph H) : Cut ∅ c c := by
  have same : ConflictSet.without (∅ : Finset H) = id := by
    funext set
    simp [ConflictSet.without]
  constructor <;> simp [same]

theorem Cut.trans {R R' : Finset H} {c c' c'' : ConflictGraph H} (first : Cut R c c')
    (second : Cut R' c' c'') : Cut (R ∪ R') c c'' := by
  have union : ∀ set : ConflictSet H, (set.without R).without R' = set.without (R ∪ R') := by
    intro set
    simp [ConflictSet.without, sdiff_sdiff_left]
  constructor
  · intro k
    rw [second.cells, first.cells]
    by_cases h : k ∈ R <;> by_cases h' : k ∈ R' <;> simp [h, h']
  · intro k
    rw [second.cs, first.cs]
    by_cases h : k ∈ R <;> by_cases h' : k ∈ R' <;> simp [h, h', Function.comp_def, union]
  · intro id
    rw [second.spenders, first.spenders, sdiff_sdiff_left]
    rfl
  · intro id
    rw [second.ids, first.ids]
  · rw [second.order, first.order, List.filter_filter]
    congr 1
    funext k
    by_cases h : k ∈ R <;> by_cases h' : k ∈ R' <;> simp [h, h']

theorem Cut.sets (cut : Cut R c c') {k : H} {set' : ConflictSet H}
    (found : c'.cs.lookup k = some set') :
    ∃ set, c.cs.lookup k = some set ∧ k ∉ R ∧ set' = set.without R := by
  rw [cut.cs] at found
  by_cases hR : k ∈ R
  · simp [hR] at found
  · rw [if_neg hR, Option.map_eq_some_iff] at found
    obtain ⟨set, known, rfl⟩ := found
    exact ⟨set, known, hR, rfl⟩

end Cut

theorem Cut.consistent (cut : Cut R c c') (ok : Consistent c) : Consistent c' := by
  constructor
  · intro h cell found
    rw [cut.cells] at found
    by_cases hR : h ∈ R
    · simp [hR] at found
    · exact ok.hashed h cell (by simpa [hR] using found)
  · intro id h member
    rw [cut.spenders, Finset.mem_sdiff] at member
    obtain ⟨cell, known, consumes⟩ := ok.spender id h member.1
    exact ⟨cell, by rw [cut.cells, if_neg member.2, known], consumes⟩
  · intro h set' found
    obtain ⟨set, known, hR, rfl⟩ := cut.sets found
    obtain ⟨cell, kept, ids⟩ := ok.stored h set known
    exact ⟨cell, by rw [cut.cells, if_neg hR, kept], fun id hid => (cut.ids id).mpr (ids id hid)⟩
  · intro h set' found
    obtain ⟨set, known, hR, rfl⟩ := cut.sets found
    exact Finset.mem_sdiff.mpr ⟨ok.own h set known, hR⟩
  · intro h set' found k member
    obtain ⟨set, known, hR, rfl⟩ := cut.sets found
    obtain ⟨inSet, kR⟩ := Finset.mem_sdiff.mp member
    obtain ⟨other, there, back⟩ := ok.symm h set known k inSet
    refine ⟨other.without R, ?_, Finset.mem_sdiff.mpr ⟨back, hR⟩⟩
    rw [cut.cs, if_neg kR, there]
    rfl

omit [Blake3 H] in
theorem unlink_lookup (hash : H) (others : List H) (nodup : others.Nodup)
    (cs : HashMap H (ConflictSet H)) (k : H) :
    (unlink hash others cs).lookup k =
      if k ∈ others then (cs.lookup k).map (·.removeFromConflictSet hash) else cs.lookup k := by
  unfold unlink
  induction others generalizing cs with
  | nil => simp
  | cons a others ih =>
    have parts := List.nodup_cons.mp nodup
    rw [List.foldl_cons, ih parts.2]
    cases ha : cs.lookup a with
    | none =>
      by_cases hk : k = a
      · subst hk; simp [parts.1, ha]
      · simp [hk]
    | some set =>
      simp only [HashMap.lookup_insert_ite]
      by_cases hk : k = a
      · subst hk; simp [parts.1, ha]
      · simp [hk]

omit [Blake3 H] in
/-- The guard on the size never keeps a conflict: a set with another element than
its owner has two. -/
theorem removeFromConflictSet_eq {hash k : H} {set : ConflictSet H} (own : k ∈ set.conflicts)
    (ne : k ≠ hash) : set.removeFromConflictSet hash = set.without {hash} := by
  unfold ConflictSet.removeFromConflictSet ConflictSet.without
  rw [Finset.sdiff_singleton_eq_erase]
  split
  · rename_i small
    have absent : hash ∉ set.conflicts :=
      fun member => ne (Finset.card_le_one.mp small k own hash member)
    rw [Finset.erase_eq_of_notMem absent]
  · rfl

/-- The vertices without a spender; `none` if an id is missing. -/
theorem removeFromVertices_spec (order : HashOrder H) {cell : Cell H}
    (stored : c.cells.lookup hash = some cell) (hashed : cell.hash = hash)
    (ids : ∀ id, id ∈ cell.consumed ∨ id ∈ cell.produced → id ∈ c.vertices) :
    ∃ vs, removeFromVertices order c hash = some vs ∧ (∀ id, id ∈ vs ↔ id ∈ c.vertices) ∧
      ∀ id, spendersAt vs id =
        if id ∈ cell.consumed then (spendersAt c.vertices id).erase hash
        else spendersAt c.vertices id := by
  subst hashed
  let reject : VertexData H → VertexData H := fun data => { data with status := .rejected }
  let drop : VertexData H → VertexData H :=
    fun data => { data with spenders := data.spenders.erase cell.hash }
  have outputs : ∀ id ∈ order.cellIds.list (fromOutputs cell.hash cell.outputs),
      id ∈ c.vertices := fun id listed => ids id (.inr ((order.cellIds.mem _ _).mp listed))
  obtain ⟨vs, first, mem⟩ := HashMap.updateKeys_total reject outputs
  have inputs : ∀ id ∈ order.cellIds.list cell.consumed, id ∈ vs := fun id listed =>
    (mem id).mpr (ids id (.inl ((order.cellIds.mem _ _).mp listed)))
  obtain ⟨vs', second, mem'⟩ := HashMap.updateKeys_total drop inputs
  have spenders : ∀ id, spendersAt vs id = spendersAt c.vertices id := fun id => by
    have h := setStatus_spenders .rejected
      (order.cellIds.list (fromOutputs cell.hash cell.outputs)) c.vertices id
    rwa [show HashMap.updateKeys (fun data => { data with status := .rejected }) _ _ = (true, vs)
      from first] at h
  refine ⟨vs', ?_, fun id => (mem' id).trans (mem id), ?_⟩
  · unfold removeFromVertices
    rw [stored]
    simp only [show HashMap.updateKeys (fun data => { data with status := .rejected })
      (order.cellIds.list (fromOutputs cell.hash cell.outputs)) c.vertices = (true, vs) from first,
      show HashMap.updateKeys (fun data => { data with spenders := data.spenders.erase cell.hash })
      (order.cellIds.list cell.consumed) vs = (true, vs') from second]
  · intro id
    have h := HashMap.updateKeys_lookup drop (fun data => by simp [drop])
      (order.cellIds.list cell.consumed) vs (by rw [second]) id
    rw [second] at h
    rw [← spenders id]
    unfold spendersAt
    rw [h]
    by_cases consumes : id ∈ cell.consumed
    · cases vs.lookup id <;> simp [order.cellIds.mem, consumes, drop]
    · simp [order.cellIds.mem, consumes]

/-- A cell with a conflict set can be removed, and the removal is a cut. -/
theorem removeCell_cut (order : HashOrder H) (ok : Consistent c) {set : ConflictSet H}
    (known : c.cs.lookup hash = some set) :
    ∃ c', removeCell order c hash = .ok () c' ∧ Cut {hash} c c' := by
  obtain ⟨cell, stored, ids⟩ := ok.stored hash set known
  obtain ⟨vs, removed, mem, spenders⟩ :=
    removeFromVertices_spec order stored (ok.hashed hash cell stored) ids
  refine ⟨_, by unfold removeCell; rw [known]; simp only [removed]; rfl, ?_⟩
  constructor
  · intro k
    rw [HashMap.lookup_erase_ite]
    simp
  · intro k
    have nodup := (order.hashes.nodup set.conflicts).filter fun h => decide (h ≠ hash)
    rw [HashMap.lookup_erase_ite, unlink_lookup hash _ nodup]
    by_cases hk : k = hash
    · simp [hk]
    · cases found : c.cs.lookup k with
      | none => simp [hk]
      | some other =>
        have own := ok.own k other found
        by_cases member : k ∈ set.conflicts
        · simp [hk, order.hashes.mem, member, removeFromConflictSet_eq own hk]
        · have absent : hash ∉ other.conflicts := by
            intro back
            obtain ⟨set', known', there⟩ := ok.symm k other found hash back
            rw [known] at known'
            cases known'
            exact member there
          simp [hk, order.hashes.mem, member, ConflictSet.without,
            Finset.sdiff_singleton_eq_erase, Finset.erase_eq_of_notMem absent]
  · intro id
    rw [spenders, Finset.sdiff_singleton_eq_erase]
    by_cases consumes : id ∈ cell.consumed
    · rw [if_pos consumes]
    · have absent : hash ∉ spendersAt c.vertices id := by
        intro member
        obtain ⟨cell', stored', consumes'⟩ := ok.spender id hash member
        rw [stored] at stored'
        cases stored'
        exact consumes consumes'
      rw [if_neg consumes, Finset.erase_eq_of_notMem absent]
  · exact mem
  · simp

theorem removeAll_cut (order : HashOrder H) (hashes : List H) (nodup : hashes.Nodup)
    (ok : Consistent c) (known : ∀ h ∈ hashes, ∃ set, c.cs.lookup h = some set) :
    ∃ c', Outcome.forEach (fun other c => removeCell order c other) hashes c = .ok () c' ∧
      Cut hashes.toFinset c c' := by
  induction hashes generalizing c with
  | nil => exact ⟨c, rfl, by simpa using Cut.refl c⟩
  | cons a hashes ih =>
    have parts := List.nodup_cons.mp nodup
    obtain ⟨set, ha⟩ := known a List.mem_cons_self
    obtain ⟨c₁, removed, cut⟩ := removeCell_cut order ok ha
    have rest : ∀ h ∈ hashes, ∃ set, c₁.cs.lookup h = some set := by
      intro h hh
      obtain ⟨set, found⟩ := known h (List.mem_cons_of_mem a hh)
      have ne : h ≠ a := by rintro rfl; exact parts.1 hh
      exact ⟨set.without {a}, by simp [cut.cs, ne, found]⟩
    obtain ⟨c₂, done, cut'⟩ := ih parts.2 (cut.consistent ok) rest
    refine ⟨c₂, ?_, ?_⟩
    · simp only [Outcome.forEach, removed, Outcome.bind_ok]
      exact done
    · rw [List.toFinset_cons, Finset.insert_eq]
      exact cut.trans cut'

end ConflictGraph
end Subzero
