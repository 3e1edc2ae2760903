import Subzero.Graph.Operations

/-! Removal without any assumption on the graph: counters stay, conflict sets only
shrink, and they lose no more than what is removed. It holds of calls that fail
half-way too. -/
namespace Subzero.ConflictGraph
variable {H : Type} [DecidableEq H] [Blake3 H]
variable {X : H → Prop} {c c' : ConflictGraph H}

/-- Conflict sets belong to stored cells. This much needs no assumption on the
hash: a collision can replace a stored cell but not drop it. -/
def Stored (c : ConflictGraph H) : Prop := ∀ h ∈ c.cs, h ∈ c.cells

/-- The conflict sets of `c'` are those of `c` less some of the cells `X`. A cell
is never missed in its own set. -/
structure Shrinks (X : H → Prop) (c c' : ConflictGraph H) : Prop where
  below : ∀ k set', c'.cs.lookup k = some set' → ∃ set, c.cs.lookup k = some set ∧
    set'.cnt = set.cnt ∧ (∀ x ∈ set'.conflicts, x = k ∨ x ∈ set.conflicts) ∧
    ∀ x ∈ set.conflicts, x = k ∨ ¬ X x → x ∈ set'.conflicts
  keeps : ∀ k ∈ c.cs, ¬ X k → k ∈ c'.cs

section
omit [Blake3 H]

theorem Shrinks.of_cs (X : H → Prop) (same : c'.cs = c.cs) : Shrinks X c c' :=
  ⟨fun _ set' found => ⟨set', same ▸ found, rfl, fun _ => Or.inr, fun _ h _ => h⟩,
    fun _ known _ => same ▸ known⟩

theorem Shrinks.refl (X : H → Prop) (c : ConflictGraph H) : Shrinks X c c := .of_cs X rfl

theorem Shrinks.trans {c₁ c₂ c₃ : ConflictGraph H} (first : Shrinks X c₁ c₂)
    (second : Shrinks X c₂ c₃) : Shrinks X c₁ c₃ := by
  refine ⟨fun k set₃ found => ?_, fun k known out =>
    second.keeps k (first.keeps k known out) out⟩
  obtain ⟨set₂, found₂, cnt₂, sub₂, keep₂⟩ := second.below k set₃ found
  obtain ⟨set₁, found₁, cnt₁, sub₁, keep₁⟩ := first.below k set₂ found₂
  refine ⟨set₁, found₁, cnt₂.trans cnt₁, fun x hx => ?_, fun x hx out => ?_⟩
  · exact (sub₂ x hx).elim Or.inl (sub₁ x)
  · exact keep₂ x (keep₁ x hx out) out

theorem removeFromConflictSet_shrinks (hash : H) (set : ConflictSet H) :
    (set.removeFromConflictSet hash).cnt = set.cnt ∧
      (set.removeFromConflictSet hash).conflicts ⊆ set.conflicts ∧
      ∀ x ∈ set.conflicts, x ≠ hash → x ∈ (set.removeFromConflictSet hash).conflicts := by
  unfold ConflictSet.removeFromConflictSet
  split
  · exact ⟨rfl, subset_rfl, fun _ h _ => h⟩
  · exact ⟨rfl, Finset.erase_subset _ _, fun x h ne => Finset.mem_erase.mpr ⟨ne, h⟩⟩

end

/-- A removal, whether or not it fails, leaves no conflict set without its cell
and keeps other cells stored. -/
theorem removeCell_shrinks (order : HashOrder H) {hash : H} (out : X hash)
    (left : (removeCell order c hash).state? = some c') :
    Shrinks X c c' ∧ (Stored c → Stored c') ∧ ∀ k ≠ hash, k ∈ c.cells → k ∈ c'.cells := by
  unfold removeCell at left
  split at left
  · cases left
    exact ⟨.refl X c, fun h => h, fun _ _ h => h⟩
  · rename_i set known
    split at left
    · cases left
    · rename_i vertices removed
      cases left
      have nodup := (order.hashes.nodup set.conflicts).filter fun h => decide (h ≠ hash)
      have entry := unlink_lookup hash _ nodup c.cs
      have shrinks : Shrinks X c ⟨vertices, c.cells.erase hash,
          (unlink hash ((order.hashes.list set.conflicts).filter (· ≠ hash)) c.cs).erase hash,
          c.insertionOrder.filter (· ≠ hash)⟩ := by
        refine ⟨fun k set' found => ?_, fun k known inside => ?_⟩
        · rw [HashMap.lookup_erase_ite, entry] at found
          split at found
          · cases found
          · rename_i other
            split at found
            · obtain ⟨old, there, rfl⟩ := Option.map_eq_some_iff.mp found
              obtain ⟨cnt, sub, keep⟩ := removeFromConflictSet_shrinks hash old
              refine ⟨old, there, cnt, fun x hx => Or.inr (sub hx), fun x hx inside => ?_⟩
              refine keep x hx fun eq => ?_
              rcases inside with same | inside
              · exact other (same.symm.trans eq)
              · exact inside (eq ▸ out)
            · exact (Shrinks.refl X c).below k set' found
        · have ne : k ≠ hash := fun eq => inside (eq ▸ out)
          refine Finmap.mem_erase.mpr ⟨ne, ?_⟩
          rw [← Finmap.lookup_isSome, entry]
          split <;> simpa [Finmap.lookup_isSome] using known
      refine ⟨shrinks, fun stored k member => ?_, fun k ne member => ?_⟩
      · obtain ⟨set', found⟩ := Finmap.mem_iff.mp member
        obtain ⟨old, there, _⟩ := shrinks.below k set' found
        refine Finmap.mem_erase.mpr ⟨(Finmap.mem_erase.mp member).1, ?_⟩
        exact stored k (Finmap.mem_of_lookup_eq_some there)
      · exact Finmap.mem_erase.mpr ⟨ne, member⟩

/-- The loop of an acceptance removes only what may go, and so not the accepted cell. -/
theorem removeCells_shrinks (order : HashOrder H) {hash : H} {rejected : List H}
    (gone : ∀ r ∈ rejected, r ≠ hash ∧ X r)
    (left : (Outcome.forEach (fun other c => removeCell order c other) rejected c).state? =
      some c') :
    Shrinks X c c' ∧ (Stored c → Stored c') ∧ (hash ∈ c.cells → hash ∈ c'.cells) := by
  let R : ConflictGraph H → ConflictGraph H → Prop := fun a b =>
    Shrinks X a b ∧ (Stored a → Stored b) ∧ (hash ∈ a.cells → hash ∈ b.cells)
  refine Outcome.forEach_rel R (fun a => ⟨.refl X a, id, id⟩) ?_ _ rejected ?_ c c' left
  · intro a b d first second
    exact ⟨first.1.trans second.1, second.2.1 ∘ first.2.1, second.2.2 ∘ first.2.2⟩
  · intro other member a b removed
    obtain ⟨ne, out⟩ := gone other member
    obtain ⟨shrinks, stored, others⟩ := removeCell_shrinks order out removed
    exact ⟨shrinks, stored, others hash ne.symm⟩

omit [Blake3 H] in
/-- The set of the accepted cell shrinks to the cell alone. -/
theorem Shrinks.accepted {hash : H} {set : ConflictSet H} (shrinks : Shrinks X c c')
    (known : c.cs.lookup hash = some set) (out : ∀ x ∈ set.conflicts, x ≠ hash → X x) :
    Shrinks X c { c' with cs := c'.cs.insert hash (acceptedSet hash set) } := by
  refine ⟨fun k set' found => ?_, fun k member inside => ?_⟩
  · rcases HashMap.lookup_insert_some found with ⟨here, rfl⟩ | ⟨_, old⟩
    · refine ⟨set, here ▸ known, rfl, fun x hx => ?_, fun x hx inside => ?_⟩
      · exact .inl (by simpa [acceptedSet, ConflictSet.new, here] using hx)
      · have same : x = hash := by
          by_contra other
          exact inside.elim (fun eq => other (eq.trans here)) fun kept => kept (out x hx other)
        simp [acceptedSet, ConflictSet.new, same]
    · exact shrinks.below k set' old
  · exact Finmap.mem_insert.mpr (.inr (shrinks.keeps k member inside))

/-- An acceptance returns conflicts of the cell, and shrinks the sets by them. -/
theorem acceptCell_shrinks (order : HashOrder H) {cell : Cell H}
    (out : ∀ set, c.cs.lookup cell.hash = some set → ∀ x ∈ set.conflicts, x ≠ cell.hash → X x)
    (left : (acceptCell order c cell).state? = some c') :
    Shrinks X c c' ∧ (Stored c → Stored c') ∧
      ∀ rejected, acceptCell order c cell = .ok rejected c' → ∀ r ∈ rejected, X r := by
  rcases acceptCell_eq order c cell with ⟨panics, _⟩ | ⟨c₀, cut, same, eq⟩
  · rw [panics] at left; cases left
  have cells : ∀ k, k ∈ c.cells → k ∈ c₀.cells := by
    intro k member
    have lookup := cut.cells k
    rw [← Finmap.lookup_isSome, lookup]
    simpa [Finmap.lookup_isSome] using member
  have start : Shrinks X c c₀ ∧ (Stored c → Stored c₀) :=
    ⟨.of_cs X same, fun stored k member => cells k (stored k (same ▸ member))⟩
  rw [eq] at left ⊢
  cases known : c.cs.lookup cell.hash with
  | none =>
    simp only [known] at left ⊢
    cases left
    exact ⟨start.1, start.2, fun _ h => by cases h⟩
  | some set =>
    simp only [known] at left ⊢
    have gone : ∀ r ∈ (order.hashes.list set.conflicts).filter (· ≠ cell.hash),
        r ≠ cell.hash ∧ X r := by
      intro r member
      obtain ⟨listed, ne⟩ := List.mem_filter.mp member
      have ne : r ≠ cell.hash := of_decide_eq_true ne
      exact ⟨ne, out set known r ((order.hashes.mem _ _).mp listed) ne⟩
    refine and_assoc.mp ⟨?_, fun rejected done => ?_⟩
    · rcases Outcome.state?_bind left with failed | ⟨⟨⟩, c₁, done, left⟩
      · obtain ⟨shrinks, stored, _⟩ := removeCells_shrinks order gone failed
        exact ⟨start.1.trans shrinks, stored ∘ start.2⟩
      · obtain ⟨shrinks, stored, own⟩ :=
          removeCells_shrinks order gone (congrArg Outcome.state? done)
        cases left
        refine ⟨(start.1.trans shrinks).accepted known (out set known), fun before k member => ?_⟩
        rcases Finmap.mem_insert.mp member with rfl | member
        · exact own (cells _ (before _ (Finmap.mem_of_lookup_eq_some known)))
        · exact stored (start.2 before) k member
    · obtain ⟨_, c₂, _, returned⟩ := Outcome.bind_eq_ok.mp done
      obtain ⟨rfl, _⟩ := Outcome.ok.inj returned
      exact fun r member => (gone r member).2

/-- Every cell is in its own conflict set. -/
def Owned (c : ConflictGraph H) : Prop := ∀ k set, c.cs.lookup k = some set → k ∈ set.conflicts

section Owned
variable {c c' : ConflictGraph H} (owned : Owned c)
include owned

omit [Blake3 H] in
theorem Owned.retuned (same : Retuned c c') : Owned c' := by
  intro k set' found
  obtain ⟨set, known, eq⟩ := same.below found
  exact eq ▸ owned k set known

omit [Blake3 H] in
theorem Owned.shrinks (shrinks : Shrinks X c c') : Owned c' := by
  intro k set' found
  obtain ⟨set, known, _, _, keep⟩ := shrinks.below k set' found
  exact keep k (owned k set known) (.inl rfl)

theorem Owned.inserted {cell : Cell H} (ins : Inserted c cell c') : Owned c' := by
  intro k set' found
  rcases ins.sets found with ⟨rfl, rfl⟩ | ⟨_, set, known, rfl⟩
  · rw [ins.freshSet_conflicts]
    exact Finset.mem_insert_self _ _
  · split
    · exact Finset.mem_insert_of_mem (owned k set known)
    · exact owned k set known

end Owned
end Subzero.ConflictGraph
