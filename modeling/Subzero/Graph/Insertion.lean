import Subzero.Graph.Conflicts

/-! What an insertion into the conflict graph does: in full when it succeeds, and
what it leaves behind when it is refused. -/
namespace Subzero
variable {H : Type} [DecidableEq H] [Blake3 H]
variable {c c' : ConflictGraph H} {cell : Cell H} {order : HashOrder H} {k : H}

def ConflictSet.joined (hash : H) (set : ConflictSet H) : ConflictSet H :=
  { set with conflicts := insert hash set.conflicts }

namespace ConflictGraph

structure Inserted (c : ConflictGraph H) (cell : Cell H) (c' : ConflictGraph H) : Prop where
  fresh : cell.hash ∉ c.cells
  known : ∀ id ∈ cell.consumed, id ∈ c.vertices
  linked : ∀ k ∈ c.conflictsOf cell, k ∈ c.cs
  first : c.conflictsOf cell ≠ ∅ → ∃ first, c.firstConflict cell = some first
  cells : c'.cells = c.cells.insert cell.hash cell
  ids : ∀ id, id ∈ c'.vertices ↔ id ∈ c.vertices ∨ id ∈ cell.produced
  spenders : ∀ id, spendersAt c'.vertices id =
    if id ∈ cell.produced then ∅
    else if id ∈ cell.consumed then insert cell.hash (spendersAt c.vertices id)
    else spendersAt c.vertices id
  cs : ∀ k, c'.cs.lookup k =
    if k = cell.hash then some (c.freshSet cell)
    else if k ∈ c.conflictsOf cell then (c.cs.lookup k).map (.joined cell.hash)
    else c.cs.lookup k

/-- A refused cell is stored all the same, and it may be recorded as a spender of
ids that it consumes. -/
structure Refused (c : ConflictGraph H) (cell : Cell H) (c' : ConflictGraph H) : Prop where
  refused : cell.hash ∈ c.cells ∨ ∃ id ∈ cell.consumed, id ∉ c.vertices
  cells : c'.cells = c.cells.insert cell.hash cell
  cs : c'.cs = c.cs
  ids : ∀ id, id ∈ c'.vertices ↔ id ∈ c.vertices
  spenders : ∀ id h, h ∈ spendersAt c'.vertices id → h ∈ spendersAt c.vertices id ∨
    h = cell.hash ∧ id ∈ cell.consumed ∧ cell.hash ∉ c.cells
  kept : ∀ id h, h ∈ spendersAt c.vertices id → h ∈ spendersAt c'.vertices id

omit [Blake3 H] in
/-- All conflicts have a conflict set, and so the new cell is not among them. -/
theorem linkConflicts_some {hash : H} {conflicts : Finset H} {cs : HashMap H (ConflictSet H)}
    (linked : linkConflicts order c hash conflicts = some cs) :
    (∀ k ∈ conflicts, k ∈ c.cs) ∧ ∃ set : ConflictSet H,
      (conflicts = ∅ ∧ set = .new hash ∨ ∃ first old, c.insertionOrder.find? (· ∈ conflicts) =
        some first ∧ c.cs.lookup first = some old ∧ set = ownSet hash conflicts old) ∧
      ∀ k, cs.lookup k = if k = hash then some set
        else if k ∈ conflicts then (c.cs.lookup k).map (.joined hash) else c.cs.lookup k := by
  let join : ConflictSet H → ConflictSet H := .joined hash
  have idem : ∀ set, join (join set) = join set := fun set => by
    simp [join, ConflictSet.joined]
  unfold linkConflicts at linked
  have flag := HashMap.updateKeys_flag join (order.hashes.list conflicts) c.cs
  have entries := HashMap.updateKeys_lookup join idem (order.hashes.list conflicts) c.cs
  cases written : HashMap.updateKeys join (order.hashes.list conflicts) c.cs with
  | mk done cs₁ =>
  rw [show HashMap.updateKeys (fun set => { set with conflicts := insert hash set.conflicts })
    (order.hashes.list conflicts) c.cs = (done, cs₁) from written] at linked
  rw [written] at flag entries
  cases done with
  | false => simp at linked
  | true =>
    have entry := entries rfl
    simp only [order.hashes.mem] at entry flag
    refine ⟨flag.mp trivial, ?_⟩
    simp only at linked
    split at linked
    · rename_i none_found
      cases linked
      refine ⟨_, Or.inl ⟨none_found, rfl⟩, fun k => ?_⟩
      rw [HashMap.lookup_insert_ite, entry]
    · split at linked
      · cases linked
      · rename_i first found
        split at linked
        · cases linked
        · rename_i set stored
          cases linked
          have member : first ∈ conflicts := by simpa using List.find?_some found
          rw [entry, if_pos member, Option.map_eq_some_iff] at stored
          obtain ⟨old, known, rfl⟩ := stored
          refine ⟨_, Or.inr ⟨first, old, found, known, rfl⟩, fun k => ?_⟩
          rw [HashMap.lookup_insert_ite, entry]
          rfl

/-- The cell itself is last in the insertion order, so its first conflict is an older
one, and the set that it is linked with is the fresh set. -/
theorem freshSet_of_linked {set : ConflictSet H} (outside : cell.hash ∉ c.conflictsOf cell)
    (source : c.conflictsOf cell = ∅ ∧ set = .new cell.hash ∨ ∃ first old, (c.insertionOrder ++
      [cell.hash]).find? (· ∈ c.conflictsOf cell) = some first ∧ c.cs.lookup first = some old ∧ set
      = ownSet cell.hash (c.conflictsOf cell) old) :
    (c.conflictsOf cell ≠ ∅ → ∃ first, c.firstConflict cell = some first) ∧
      c.freshSet cell = set := by
  unfold freshSet firstConflict
  rcases source with ⟨empty, rfl⟩ | ⟨first, old, at_first, known, rfl⟩
  · have no_first : c.insertionOrder.find? (· ∈ c.conflictsOf cell) = none := by
      simp [empty]
    rw [no_first]
    exact ⟨fun conflict => absurd empty conflict, rfl⟩
  · have at_old : c.insertionOrder.find? (· ∈ c.conflictsOf cell) = some first := by
      rw [List.find?_append] at at_first
      rcases Option.or_eq_some_iff.mp at_first with h | ⟨_, h⟩
      · exact h
      · simp [outside] at h
    rw [at_old, Option.bind_some, known]
    exact ⟨fun _ => ⟨old, rfl⟩, rfl⟩

/-- The loop over the consumed ids stops at one that is unknown. -/
theorem refused_of_spend {vs : HashMap (CellId H) (VertexData H)} {conflicts : Finset H}
    (fresh : cell.hash ∉ c.cells)
    (spent : spend cell.hash (order.cellIds.list cell.consumed) c.vertices ∅ = (false, vs,
      conflicts)) :
    Refused c cell { c with cells := c.cells.insert cell.hash cell, vertices := vs } := by
  obtain ⟨flag, loop⟩ := spend_spent cell.hash (order.cellIds.list cell.consumed) c.vertices ∅
  rw [spent] at flag loop
  refine ⟨.inr ?_, rfl, rfl, loop.mem, ?_, loop.kept⟩
  · by_contra all
    push Not at all
    exact Bool.false_ne_true (flag.mpr fun id hid => all id ((order.cellIds.mem _ _).mp hid))
  · intro id h member
    rcases loop.spenders id h member with old | ⟨rfl, hid⟩
    · exact .inl old
    · exact .inr ⟨rfl, (order.cellIds.mem _ _).mp hid, fresh⟩

/-- All the consumed ids are known, and all the conflicts have a set. -/
theorem inserted_of_linked {vs : HashMap (CellId H) (VertexData H)} {conflicts : Finset H}
    {cs : HashMap H (ConflictSet H)} (stored : ∀ h ∈ c.cs, h ∈ c.cells)
    (fresh : cell.hash ∉ c.cells)
    (spent : spend cell.hash (order.cellIds.list cell.consumed) c.vertices ∅ = (true, vs,
      conflicts))
    (linked : linkConflicts order ⟨produce (order.cellIds.list cell.produced) vs, c.cells.insert
      cell.hash cell, c.cs, c.insertionOrder ++ [cell.hash]⟩ cell.hash conflicts = some cs) :
    Inserted c cell ⟨produce (order.cellIds.list cell.produced) vs,
      c.cells.insert cell.hash cell, cs, c.insertionOrder ++ [cell.hash]⟩ := by
  obtain ⟨flag, loop⟩ := spend_spent cell.hash (order.cellIds.list cell.consumed) c.vertices ∅
  rw [spent] at flag loop
  obtain ⟨spenders, found⟩ := spend_ok (order.cellIds.nodup cell.consumed) spent
  obtain rfl : conflicts = c.conflictsOf cell := by
    ext k
    simp [found, mem_conflictsOf, order.cellIds.mem]
  obtain ⟨all, set, source, entry⟩ := linkConflicts_some linked
  have outside : cell.hash ∉ c.conflictsOf cell := fun h => fresh (stored _ (all _ h))
  have sets := freshSet_of_linked outside source
  refine ⟨fresh, fun id hid => flag.mp rfl id ((order.cellIds.mem _ _).mpr hid), all, sets.1, rfl,
    ?_, ?_, ?_⟩
  · intro id
    rw [← Finmap.lookup_isSome, produce_lookup]
    simp only [order.cellIds.mem]
    by_cases hid : id ∈ cell.produced
    · simp [hid]
    · simp only [hid, if_false, or_false]
      rw [Finmap.lookup_isSome]
      exact loop.mem id
  · intro id
    have made := produce_lookup (order.cellIds.list cell.produced) vs id
    have spent_at := spenders id
    unfold spendersAt at spent_at ⊢
    simp only [made, order.cellIds.mem] at spent_at ⊢
    by_cases hid : id ∈ cell.produced
    · simp [hid]
    · simp only [hid, if_false]
      exact spent_at
  · rw [sets.2]
    exact entry

/-- An insertion succeeds, is refused, or panics on a conflict without a set. -/
theorem insertCell_cases (order : HashOrder H) (stored : ∀ h ∈ c.cs, h ∈ c.cells)
    (left : (insertCell order c cell).state? = some c') :
    (insertCell order c cell = .ok () c' ∧ Inserted c cell c') ∨
      (∃ e, insertCell order c cell = .err e c') ∧ Refused c cell c' := by
  unfold insertCell at left ⊢
  simp only at left ⊢
  by_cases dup : (c.cells.lookup cell.hash).isSome
  · rw [if_pos dup] at left ⊢
    cases left
    exact .inr ⟨⟨_, rfl⟩, .inl (Finmap.lookup_isSome.mp dup), rfl, rfl, fun _ => Iff.rfl,
      fun _ _ => .inl, fun _ _ h => h⟩
  · have fresh : cell.hash ∉ c.cells := fun h => dup (Finmap.lookup_isSome.mpr h)
    rw [if_neg dup] at left ⊢
    cases spent : spend cell.hash (order.cellIds.list cell.consumed) c.vertices ∅ with
    | mk done rest =>
    obtain ⟨vs, conflicts⟩ := rest
    rw [spent] at left
    cases done with
    | false =>
      cases left
      exact .inr ⟨⟨_, rfl⟩, refused_of_spend fresh spent⟩
    | true =>
      simp only at left ⊢
      split at left
      · cases left
      · rename_i cs linked
        cases left
        exact .inl ⟨rfl, inserted_of_linked stored fresh spent linked⟩

theorem insertCell_inserted {u : Unit} (stored : ∀ h ∈ c.cs, h ∈ c.cells)
    (done : insertCell order c cell = .ok u c') : Inserted c cell c' := by
  rcases insertCell_cases order stored (congrArg Outcome.state? done) with
    ⟨_, inserted⟩ | ⟨⟨e, failed⟩, _⟩
  · exact inserted
  · rw [done] at failed
    contradiction

theorem insertCell_refused {e : GraphError H} (stored : ∀ h ∈ c.cs, h ∈ c.cells)
    (failed : insertCell order c cell = .err e c') : Refused c cell c' := by
  rcases insertCell_cases order stored (congrArg Outcome.state? failed) with
    ⟨done, _⟩ | ⟨_, refused⟩
  · rw [failed] at done
    contradiction
  · exact refused

theorem firstConflict_of_empty (empty : c.conflictsOf cell = ∅) : c.firstConflict cell = none := by
  have nothing : c.insertionOrder.find? (· ∈ c.conflictsOf cell) = none := by simp [empty]
  rw [firstConflict, nothing]
  rfl

theorem Inserted.freshSet_conflicts (ins : Inserted c cell c') :
    (c.freshSet cell).conflicts = insert cell.hash (c.conflictsOf cell) := by
  by_cases empty : c.conflictsOf cell = ∅
  · simp [freshSet, firstConflict_of_empty empty, empty, ConflictSet.new]
  · obtain ⟨first, found⟩ := ins.first empty
    simp [freshSet, found, ownSet]

theorem Consistent.cs_cells (ok : Consistent c) : ∀ h ∈ c.cs, h ∈ c.cells := by
  intro h member
  obtain ⟨set, known⟩ := Finmap.mem_iff.mp member
  obtain ⟨cell, stored, _⟩ := ok.stored h set known
  exact Finmap.mem_of_lookup_eq_some stored

theorem Inserted.ne_of_known (ok : Consistent c) (ins : Inserted c cell c') {set : ConflictSet H}
    (known : c.cs.lookup k = some set) : k ≠ cell.hash := by
  rintro rfl
  exact ins.fresh (ok.cs_cells _ (Finmap.mem_of_lookup_eq_some known))

/-- The conflicts of the cells after an insertion: an old set, joined by the new
cell where they share an id. -/
theorem Inserted.sets (ins : Inserted c cell c') {set' : ConflictSet H}
    (found : c'.cs.lookup k = some set') :
    (k = cell.hash ∧ set' = c.freshSet cell) ∨ k ≠ cell.hash ∧ ∃ set, c.cs.lookup k = some set ∧
      set' = if k ∈ c.conflictsOf cell then set.joined cell.hash else set := by
  rw [ins.cs] at found
  by_cases hk : k = cell.hash
  · rw [if_pos hk] at found
    cases found
    exact Or.inl ⟨hk, rfl⟩
  · rw [if_neg hk] at found
    refine Or.inr ⟨hk, ?_⟩
    split at found
    · rename_i conflict
      obtain ⟨set, known, rfl⟩ := Option.map_eq_some_iff.mp found
      exact ⟨set, known, by rw [if_pos conflict]⟩
    · rename_i conflict
      exact ⟨set', found, by rw [if_neg conflict]⟩

theorem Inserted.grown (ok : Consistent c) (ins : Inserted c cell c') {set : ConflictSet H}
    (known : c.cs.lookup k = some set) :
    ∃ set', c'.cs.lookup k = some set' ∧ set.conflicts ⊆ set'.conflicts ∧
      (k ∈ c.conflictsOf cell → cell.hash ∈ set'.conflicts) := by
  rw [ins.cs, if_neg (ins.ne_of_known ok known)]
  split
  · rw [known]
    exact ⟨_, rfl, Finset.subset_insert _ _, fun _ => Finset.mem_insert_self _ _⟩
  · rename_i outside
    exact ⟨set, known, subset_rfl, fun inside => absurd inside outside⟩

theorem Inserted.symm (ok : Consistent c) (ins : Inserted c cell c') {h k : H}
    {set' : ConflictSet H} (found : c'.cs.lookup h = some set') (member : k ∈ set'.conflicts) :
    ∃ other, c'.cs.lookup k = some other ∧ h ∈ other.conflicts := by
  have entry : c'.cs.lookup cell.hash = some (c.freshSet cell) := by rw [ins.cs, if_pos rfl]
  rcases ins.sets found with ⟨rfl, rfl⟩ | ⟨ne, set, known, rfl⟩
  · rw [ins.freshSet_conflicts, Finset.mem_insert] at member
    rcases member with rfl | conflict
    · exact ⟨_, entry, by simp [ins.freshSet_conflicts]⟩
    · obtain ⟨set, known⟩ := Finmap.mem_iff.mp (ins.linked k conflict)
      obtain ⟨set', found', _, back⟩ := ins.grown ok known
      exact ⟨set', found', back conflict⟩
  · have back : k ∈ set.conflicts → ∃ other, c'.cs.lookup k = some other ∧
        h ∈ other.conflicts := fun inside => by
      obtain ⟨other, there, back⟩ := ok.symm h set known k inside
      obtain ⟨other', there', sub, _⟩ := ins.grown ok there
      exact ⟨other', there', sub back⟩
    split at member
    · rename_i conflict
      rcases Finset.mem_insert.mp member with rfl | inside
      · refine ⟨_, entry, ?_⟩
        rw [ins.freshSet_conflicts]
        exact Finset.mem_insert_of_mem conflict
      · exact back inside
    · exact back member

/-- A cell is stored under its hash, where no other cell is. -/
theorem Consistent.stores (ok : Consistent c) (cells : c'.cells = c.cells.insert cell.hash cell)
    (only : ∀ old, c.cells.lookup cell.hash = some old → old = cell) :
    (∀ h other, c'.cells.lookup h = some other → other.hash = h) ∧
      c'.cells.lookup cell.hash = some cell ∧
      ∀ {h other}, c.cells.lookup h = some other → c'.cells.lookup h = some other := by
  rw [cells]
  refine ⟨fun h other found => ?_, Finmap.lookup_insert _, fun {h other} known => ?_⟩
  · rcases HashMap.lookup_insert_some found with ⟨rfl, rfl⟩ | ⟨_, old⟩
    · rfl
    · exact ok.hashed h other old
  · rw [HashMap.lookup_insert_ite]
    split
    · rename_i same
      rw [only other (same ▸ known)]
    · exact known

theorem Inserted.consistent (ok : Consistent c) (ins : Inserted c cell c') : Consistent c' := by
  obtain ⟨hashed, here, keep⟩ := ok.stores ins.cells fun old found =>
    absurd (Finmap.mem_of_lookup_eq_some found) ins.fresh
  constructor
  · exact hashed
  · intro id h member
    rw [ins.spenders] at member
    have old : h ∈ spendersAt c.vertices id → ∃ cell, c'.cells.lookup h = some cell ∧
        id ∈ cell.consumed := fun there => by
      obtain ⟨other, known, consumes⟩ := ok.spender id h there
      exact ⟨other, keep known, consumes⟩
    split at member
    · simp at member
    · split at member
      · rename_i consumes
        rcases Finset.mem_insert.mp member with rfl | there
        · exact ⟨cell, here, consumes⟩
        · exact old there
      · exact old member
  · intro h set' found
    rcases ins.sets found with ⟨rfl, _⟩ | ⟨_, set, known, _⟩
    · refine ⟨cell, here, fun id hid => (ins.ids id).mpr ?_⟩
      exact hid.imp (ins.known id) (fun made => made)
    · obtain ⟨other, stored, ids⟩ := ok.stored h set known
      exact ⟨other, keep stored, fun id hid => (ins.ids id).mpr (Or.inl (ids id hid))⟩
  · intro h set' found
    rcases ins.sets found with ⟨rfl, rfl⟩ | ⟨_, set, known, rfl⟩
    · simp [ins.freshSet_conflicts]
    · have own := ok.own h set known
      split
      · exact Finset.mem_insert_of_mem own
      · exact own
  · exact fun h set' found k member => ins.symm ok found member

/-- Storing a refused cell again changes nothing if no other cell has its hash. -/
theorem Refused.consistent (injective : Function.Injective (Cell.hash : Cell H → H))
    (ok : Consistent c) (ref : Refused c cell c') : Consistent c' := by
  obtain ⟨hashed, here, keep⟩ := ok.stores ref.cells fun old found =>
    injective (ok.hashed cell.hash old found)
  constructor
  · exact hashed
  · intro id h member
    rcases ref.spenders id h member with there | ⟨rfl, consumes, _⟩
    · obtain ⟨other, known, consumes⟩ := ok.spender id h there
      exact ⟨other, keep known, consumes⟩
    · exact ⟨cell, here, consumes⟩
  · intro h set found
    obtain ⟨other, stored, ids⟩ := ok.stored h set (ref.cs ▸ found)
    exact ⟨other, keep stored, fun id hid => (ref.ids id).mpr (ids id hid)⟩
  · intro h set found
    exact ok.own h set (ref.cs ▸ found)
  · intro h set found k member
    rw [ref.cs] at found ⊢
    exact ok.symm h set found k member

end ConflictGraph
end Subzero
