import Subzero.Graph.Operations
import Subzero.Ideal

/-! Conflict detection. Conflicts are read off the recorded spenders of an id, and
an insertion overwrites the records of the ids that it produces. -/
namespace Subzero.ConflictGraph
variable {H : Type} [DecidableEq H] [Blake3 H]
variable {c c' : ConflictGraph H} {cell : Cell H}

/-- The conflict sets hold exactly the pairs that consume a common id. -/
def DetectsExactly (c : ConflictGraph H) : Prop :=
  ∀ t u cellT cellU, t ≠ u → c.cells.lookup t = some cellT → c.cells.lookup u = some cellU →
    ∃ set, c.cs.lookup t = some set ∧
      (u ∈ set.conflicts ↔ ∃ id ∈ cellT.consumed, id ∈ cellU.consumed)

/-- No spender is recorded on an id that an inserted cell produces, and the cell
does not consume it itself. -/
def Unspent (c : ConflictGraph H) : Call H → Prop
  | .insertCell cell => ∀ id ∈ cell.produced, id ∉ cell.consumed ∧ spendersAt c.vertices id = ∅
  | _ => True

instance (c : ConflictGraph H) : (x : Call H) → Decidable (Unspent c x)
  | .insertCell cell => inferInstanceAs (Decidable (∀ id ∈ cell.produced,
      id ∉ cell.consumed ∧ spendersAt c.vertices id = ∅))
  | .append _ | .acceptCell _ | .removeCell _ | .updateConflictSet _ _ _ | .resetCount _ =>
    isTrue trivial

/-- Every cell with a conflict set is a recorded spender of what it consumes, and its
set holds exactly the others with which it shares an id. A cell whose insertion failed
has no set. -/
structure Traced (c : ConflictGraph H) : Prop where
  consistent : Consistent c
  recorded : ∀ h cell, c.cells.lookup h = some cell → h ∈ c.cs → ∀ id ∈ cell.consumed,
    h ∈ spendersAt c.vertices id
  exactly : ∀ t u cellT cellU, t ≠ u → c.cells.lookup t = some cellT →
    c.cells.lookup u = some cellU → u ∈ c.cs → ∀ set, c.cs.lookup t = some set →
      (u ∈ set.conflicts ↔ ∃ id ∈ cellT.consumed, id ∈ cellU.consumed)

theorem Traced.new (order : HashOrder H) (genesis : Finset (CellId H)) :
    Traced (new order genesis : ConflictGraph H) :=
  ⟨new_consistent order genesis, by simp [ConflictGraph.new],
    fun t u cellT cellU _ found => by simp [ConflictGraph.new] at found⟩

theorem Retuned.traced (same : Retuned c c') (inv : Traced c) : Traced c' := by
  refine ⟨same.consistent inv.consistent, ?_, ?_⟩
  · intro h cell found known id consumes
    rw [same.cells] at found
    rw [same.spenders]
    exact inv.recorded h cell found (same.mem_cs.mp known) id consumes
  · intro t u cellT cellU ne foundT foundU known set' found
    rw [same.cells] at foundT foundU
    obtain ⟨set, there, eq⟩ := same.below found
    rw [eq]
    exact inv.exactly t u cellT cellU ne foundT foundU (same.mem_cs.mp known) set there

theorem Cut.traced {R : Finset H} (cut : Cut R c c') (inv : Traced c) : Traced c' := by
  have kept : ∀ {h cell}, c'.cells.lookup h = some cell → h ∉ R ∧ c.cells.lookup h = some cell := by
    intro h cell found
    rw [cut.cells] at found
    by_cases hR : h ∈ R
    · simp [hR] at found
    · exact ⟨hR, by simpa [hR] using found⟩
  have mem : ∀ {h}, h ∈ c'.cs → h ∈ c.cs := by
    intro h member
    obtain ⟨set', known⟩ := Finmap.mem_iff.mp member
    obtain ⟨set, there, _⟩ := cut.sets known
    exact Finmap.mem_of_lookup_eq_some there
  refine ⟨cut.consistent inv.consistent, ?_, ?_⟩
  · intro h cell found known id consumes
    obtain ⟨hR, stored⟩ := kept found
    rw [cut.spenders]
    exact Finset.mem_sdiff.mpr ⟨inv.recorded h cell stored (mem known) id consumes, hR⟩
  · intro t u cellT cellU ne foundT foundU known set' found
    obtain ⟨tR, storedT⟩ := kept foundT
    obtain ⟨uR, storedU⟩ := kept foundU
    rw [cut.cs, if_neg tR] at found
    obtain ⟨set, there, rfl⟩ := Option.map_eq_some_iff.mp found
    rw [← inv.exactly t u cellT cellU ne storedT storedU (mem known) set there]
    simp [ConflictSet.without, uR]

theorem Traced.mem_spenders_iff (inv : Traced c) {h : H} (stored : c.cells.lookup h = some cell)
    (known : h ∈ c.cs) (id : CellId H) : h ∈ spendersAt c.vertices id ↔ id ∈ cell.consumed := by
  refine ⟨fun member => ?_, inv.recorded h cell stored known id⟩
  obtain ⟨other, found, consumes⟩ := inv.consistent.spender id h member
  rw [stored] at found
  cases found
  exact consumes

/-- The conflicts found for a cell are those that share an id with it. -/
theorem Traced.mem_conflictsOf_iff (inv : Traced c) (cell : Cell H) {k : H} {other : Cell H}
    (stored : c.cells.lookup k = some other) (known : k ∈ c.cs) :
    k ∈ c.conflictsOf cell ↔ ∃ id ∈ cell.consumed, id ∈ other.consumed := by
  simp only [mem_conflictsOf, inv.mem_spenders_iff stored known]

theorem Inserted.mem_cs (ins : Inserted c cell c') {k : H} :
    k ∈ c'.cs ↔ k = cell.hash ∨ k ∈ c.cs := by
  rw [← Finmap.lookup_isSome, ins.cs]
  by_cases hk : k = cell.hash
  · simp [hk]
  · rw [if_neg hk, or_iff_right hk, ← Finmap.lookup_isSome]
    split <;> simp

theorem Inserted.cells_lookup (ins : Inserted c cell c') (k : H) :
    c'.cells.lookup k = if k = cell.hash then some cell else c.cells.lookup k := by
  rw [ins.cells, HashMap.lookup_insert_ite]

/-- Nothing has spent the outputs of the new cell, so no recorded spender is lost. -/
theorem Inserted.recorded (ins : Inserted c cell c') (unspent : Unspent c (.insertCell cell))
    (inv : Traced c) (h : H) (other : Cell H) (found : c'.cells.lookup h = some other)
    (known : h ∈ c'.cs) : ∀ id ∈ other.consumed, h ∈ spendersAt c'.vertices id := by
  intro id consumes
  have unmade : id ∉ cell.produced := by
    intro made
    rw [ins.cells_lookup] at found
    split at found
    · cases found
      exact (unspent id made).1 consumes
    · rename_i hh
      have member :=
        inv.recorded h other found ((ins.mem_cs.mp known).resolve_left hh) id consumes
      simp [(unspent id made).2] at member
  rw [ins.spenders, if_neg unmade]
  rw [ins.cells_lookup] at found
  split at found
  · rename_i hh
    cases found
    simp [consumes, hh]
  · rename_i hh
    have member := inv.recorded h other found ((ins.mem_cs.mp known).resolve_left hh) id consumes
    split
    · exact Finset.mem_insert_of_mem member
    · exact member

theorem Inserted.exactly (ins : Inserted c cell c') (inv : Traced c) (t u : H)
    (cellT cellU : Cell H) (ne : t ≠ u) (foundT : c'.cells.lookup t = some cellT)
    (foundU : c'.cells.lookup u = some cellU) (known : u ∈ c'.cs) (set' : ConflictSet H)
    (found : c'.cs.lookup t = some set') :
    u ∈ set'.conflicts ↔ ∃ id ∈ cellT.consumed, id ∈ cellU.consumed := by
  have ok := inv.consistent
  rw [ins.cells_lookup] at foundT foundU
  rw [ins.cs] at found
  by_cases ht : t = cell.hash
  · have hu : u ≠ cell.hash := fun hu => ne (ht.trans hu.symm)
    rw [if_pos ht] at foundT found
    cases foundT
    cases found
    rw [if_neg hu] at foundU
    rw [ins.freshSet_conflicts, Finset.mem_insert, or_iff_right hu,
      inv.mem_conflictsOf_iff cell foundU ((ins.mem_cs.mp known).resolve_left hu)]
  · rw [if_neg ht] at foundT found
    by_cases hu : u = cell.hash
    · -- an old set meets the new cell
      rw [if_pos hu] at foundU
      cases foundU
      have known_t : t ∈ c.cs := by
        rw [← Finmap.lookup_isSome]
        split at found
        · obtain ⟨set, there, _⟩ := Option.map_eq_some_iff.mp found
          simp [there]
        · simp [found]
      have shared : t ∈ c.conflictsOf cell ↔ ∃ id ∈ cellT.consumed, id ∈ cell.consumed := by
        rw [inv.mem_conflictsOf_iff cell foundT known_t]
        exact exists_congr fun id => And.comm
      rw [← shared]
      split at found
      · rename_i inside
        obtain ⟨set, there, rfl⟩ := Option.map_eq_some_iff.mp found
        simp [ConflictSet.joined, hu, inside]
      · rename_i outside
        refine ⟨fun member => ?_, fun inside => absurd inside outside⟩
        obtain ⟨other, there, _⟩ := ok.symm t set' found u member
        exact absurd hu (ins.ne_of_known ok there)
    · rw [if_neg hu] at foundU
      have old := inv.exactly t u cellT cellU ne foundT foundU
        ((ins.mem_cs.mp known).resolve_left hu)
      split at found
      · obtain ⟨set, there, rfl⟩ := Option.map_eq_some_iff.mp found
        rw [← old set there]
        simp [ConflictSet.joined, hu]
      · exact old set' found

theorem Inserted.traced (ins : Inserted c cell c') (unspent : Unspent c (.insertCell cell))
    (inv : Traced c) : Traced c' where
  consistent := ins.consistent inv.consistent
  recorded := ins.recorded unspent inv
  exactly := ins.exactly inv

/-- A refused cell has no conflict set, and the others keep theirs. -/
theorem Refused.traced (ref : Refused c cell c')
    (injective : Function.Injective (Cell.hash : Cell H → H)) (inv : Traced c) : Traced c' := by
  have ok := inv.consistent
  have stored : ∀ {h other}, c'.cells.lookup h = some other → h ∈ c.cs →
      c.cells.lookup h = some other := by
    intro h other found known
    rw [ref.cells] at found
    rcases HashMap.lookup_insert_some found with ⟨eq, rfl⟩ | ⟨_, same⟩
    · obtain ⟨old, there⟩ := Finmap.mem_iff.mp (ok.cs_cells h known)
      rw [there, injective ((ok.hashed h old there).trans eq)]
    · exact same
  refine ⟨ref.consistent injective ok, ?_, ?_⟩
  · intro h other found known id consumes
    rw [ref.cs] at known
    exact ref.kept id h (inv.recorded h other (stored found known) known id consumes)
  · intro t u cellT cellU ne foundT foundU known set found
    rw [ref.cs] at known found
    have known_t := Finmap.mem_of_lookup_eq_some found
    exact inv.exactly t u cellT cellU ne (stored foundT known_t) (stored foundU known) known set
      found

theorem Effect.traced {x : Call H} (effect : Effect c x c') (unspent : Unspent c x)
    (inv : Traced c) : Traced c' := by
  have ok := inv.consistent
  cases effect with
  | append order ids =>
    refine ⟨append_consistent order ids ok, ?_, inv.exactly⟩
    intro h cell found known id consumes
    rw [(append_retuned_ids order c ids).2]
    exact inv.recorded h cell found known id consumes
  | insertCell ins => exact ins.traced unspent inv
  | acceptCell settled =>
    obtain ⟨c₁, cut, same⟩ := settled.retuned ok
    exact same.traced (cut.traced inv)
  | removeCell cut => exact cut.traced inv
  | updateConflictSet known => exact (mutateSet_retuned known (by simp)).traced inv
  | resetCount known =>
    refine Retuned.traced (mutateSet_retuned known ?_) inv
    rfl

/-- An insertion, also one that fails, keeps the graph traced and every conflict set. -/
theorem callAny_traced (injective : Function.Injective (Cell.hash : Cell H → H))
    {order : HashOrder H} (unspent : Unspent c (.insertCell cell)) (inv : Traced c)
    (left : c.callAny (order, .insertCell cell) = some c') : Traced c' ∧ ∀ h ∈ c.cs, h ∈ c'.cs := by
  rcases callAny_cases inv.consistent left with ⟨_, effect⟩ | ⟨_, cut | ⟨_, eq, ref⟩⟩
  · cases effect with
    | insertCell ins => exact ⟨ins.traced unspent inv, fun h known => ins.mem_cs.mpr (Or.inr known)⟩
  · refine ⟨cut.traced inv, fun h known => ?_⟩
    rw [← Finmap.lookup_isSome, cut.cs]
    simpa [Finmap.lookup_isSome] using known
  · cases eq
    exact ⟨ref.traced injective inv, fun h known => ref.cs ▸ known⟩

theorem Calls.traced (calls : Calls c c') (inv : Traced c) : Traced c' :=
  calls.keeps Traced.consistent Cut.traced (fun {_ _ x} other effect => effect.traced (by
    cases x with
    | insertCell cell => exact absurd rfl (other cell)
    | _ => exact trivial)) inv

omit [Blake3 H] in
theorem Cut.total {R : Finset H} (cut : Cut R c c') (total : ∀ h ∈ c.cells, h ∈ c.cs) :
    ∀ h ∈ c'.cells, h ∈ c'.cs := by
  intro h member
  rw [← Finmap.lookup_isSome, cut.cells] at member
  rw [← Finmap.lookup_isSome, cut.cs]
  split at member
  · simp at member
  · rename_i outside
    rw [if_neg outside]
    simpa using Finmap.lookup_isSome.mpr (total h (Finmap.lookup_isSome.mp member))

theorem Effect.total {x : Call H} (ok : Consistent c) (effect : Effect c x c')
    (total : ∀ h ∈ c.cells, h ∈ c.cs) : ∀ h ∈ c'.cells, h ∈ c'.cs := by
  have retuned_total : ∀ {c₁ c₂ : ConflictGraph H}, Retuned c₁ c₂ → (∀ h ∈ c₁.cells, h ∈ c₁.cs) →
      ∀ h ∈ c₂.cells, h ∈ c₂.cs := fun same total h member =>
    same.mem_cs.mpr (total h (same.cells ▸ member))
  cases effect with
  | append order ids => exact total
  | insertCell ins =>
    intro h member
    rw [ins.cells, Finmap.mem_insert] at member
    exact ins.mem_cs.mpr (member.imp id (total h))
  | acceptCell settled =>
    obtain ⟨c₁, cut, same⟩ := settled.retuned ok
    exact retuned_total same (cut.total total)
  | removeCell cut => exact cut.total total
  | updateConflictSet known => exact retuned_total (mutateSet_retuned known (by simp)) total
  | resetCount known =>
    refine retuned_total (mutateSet_retuned known ?_) total
    rfl

theorem Traced.detects (inv : Traced c) (total : ∀ h ∈ c.cells, h ∈ c.cs) : DetectsExactly c := by
  intro t u cellT cellU ne foundT foundU
  obtain ⟨set, known⟩ := Finmap.mem_iff.mp (total t (Finmap.mem_of_lookup_eq_some foundT))
  have known_u := total u (Finmap.mem_of_lookup_eq_some foundU)
  exact ⟨set, known, inv.exactly t u cellT cellU ne foundT foundU known_u set known⟩

/-- Along successful calls that overwrite no spender, detection is exact. -/
theorem detection_exact (order : HashOrder H) (genesis : Finset (CellId H))
    (steps : List (ConflictGraph H × HashOrder H × Call H)) (c : ConflictGraph H)
    (run : Run callOk (new order genesis) steps c)
    (meets : Meets (fun c x => Unspent c x.2) steps) : DetectsExactly c := by
  have inv : Traced c ∧ ∀ h ∈ c.cells, h ∈ c.cs := by
    refine run.invariant _ meets (fun c => Traced c ∧ ∀ h ∈ c.cells, h ∈ c.cs)
      ⟨.new order genesis, fun _ member => absurd member Finmap.notMem_empty⟩ ?_
    rintro u x v ⟨inv, total⟩ unspent taken
    have effect := callOk_effect inv.consistent taken
    exact ⟨effect.traced unspent inv, effect.total inv.consistent total⟩
  exact inv.1.detects inv.2

/-- A removed cell is inserted again while a cell that spends its output is in the
graph. The record of that spender is lost, and the next one is no conflict. -/
theorem detection_not_exact :
    ¬ ∀ (steps : List (ConflictGraph Digest × HashOrder Digest × Call Digest))
      (c : ConflictGraph Digest),
      Run callOk (new ascendingOrder {coin (mint 1)}) steps c → DetectsExactly c := by
  intro exactly
  let t := pay [mint 1] 2
  let u := pay [t] 3
  let w := pay [t] 4
  have found : (exec callOk (new ascendingOrder {coin (mint 1)})
      [(ascendingOrder, .insertCell t), (ascendingOrder, .insertCell u),
        (ascendingOrder, .removeCell t.hash), (ascendingOrder, .insertCell t),
        (ascendingOrder, .insertCell w)]).any (fun r =>
          decide (r.2.cells.lookup u.hash = some u ∧ r.2.cells.lookup w.hash = some w ∧
            coin t ∈ u.consumed ∧ coin t ∈ w.consumed ∧ u.hash ≠ w.hash ∧
            ∃ set ∈ r.2.cs.lookup u.hash, w.hash ∉ set.conflicts)) = true := by
    decide +kernel
  obtain ⟨steps, c, run, missed⟩ := exec_any found
  obtain ⟨storedU, storedW, spendsU, spendsW, ne, set, known, absent⟩ := of_decide_eq_true missed
  obtain ⟨set', known', iff⟩ := exactly steps c run u.hash w.hash u w ne storedU storedW
  obtain rfl : set = set' := Option.some.inj (known.symm.trans known')
  exact absent (iff.mpr ⟨coin t, spendsU, spendsW⟩)

theorem detection_exact_chain :
    ∃ (steps : List (ConflictGraph Digest × HashOrder Digest × Call Digest))
      (c : ConflictGraph Digest),
      Run callOk (new ascendingOrder {coin (mint 1)}) steps c ∧ steps.length = 5 ∧
        DetectsExactly c := by
  let t := pay [mint 1] 2
  let u := pay [t] 3
  let w := pay [t] 4
  have found : (exec callOk (new ascendingOrder {coin (mint 1)})
      [(ascendingOrder, .insertCell t), (ascendingOrder, .insertCell u),
        (ascendingOrder, .insertCell w), (ascendingOrder, .removeCell u.hash),
        (ascendingOrder, .insertCell u)]).any (fun r =>
          decide (r.1.length = 5 ∧ ∀ x ∈ r.1, Unspent x.1 x.2.2)) = true := by
    decide +kernel
  obtain ⟨steps, c, run, both⟩ := exec_any found
  obtain ⟨length, meets⟩ := of_decide_eq_true both
  exact ⟨steps, c, run, length, detection_exact _ _ steps c run meets⟩

end Subzero.ConflictGraph
