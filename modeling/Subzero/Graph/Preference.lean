import Subzero.Graph.Operations
import Subzero.Ideal

/-! Which cells are preferred. Every cell has a conflict set of its own with a
preference of its own, so two conflicting cells can both be preferred. -/
namespace Subzero.ConflictGraph
variable {H : Type} [DecidableEq H] [Blake3 H]
variable {c c' : ConflictGraph H} {hash : H}

/-- `is_preferred` answers yes. -/
def Preferred (c : ConflictGraph H) (hash : H) : Prop := c.isPreferred hash = .ok true

instance (c : ConflictGraph H) (hash : H) : Decidable (c.Preferred hash) :=
  inferInstanceAs (Decidable (_ = _))

/-- No two conflicting cells are both preferred. -/
def Exclusive (c : ConflictGraph H) : Prop :=
  ∀ t u set, t ≠ u → c.cs.lookup t = some set → u ∈ set.conflicts →
    ¬ (c.Preferred t ∧ c.Preferred u)

/-- A call that makes a cell preferred finds none of its conflicts preferred. An
insertion does so if the conflict that was inserted first still names the cell,
which it can if the cell was in the graph before. -/
def OneSided (c : ConflictGraph H) : Call H → Prop
  | .insertCell cell => ∀ first ∈ c.firstConflict cell, first.pref = cell.hash →
      ∀ k ∈ c.conflictsOf cell, ¬ c.Preferred k
  | .updateConflictSet hash d1 d2 => d1 > d2 → ∀ set ∈ c.cs.lookup hash,
      ∀ k ∈ set.conflicts, k ≠ hash → ¬ c.Preferred k
  | _ => True

instance (c : ConflictGraph H) : (x : Call H) → Decidable (OneSided c x)
  | .insertCell cell => inferInstanceAs (Decidable (∀ first ∈ c.firstConflict cell,
      first.pref = cell.hash → ∀ k ∈ c.conflictsOf cell, ¬ c.Preferred k))
  | .updateConflictSet hash d1 d2 => inferInstanceAs (Decidable (d1 > d2 →
      ∀ set ∈ c.cs.lookup hash, ∀ k ∈ set.conflicts, k ≠ hash → ¬ c.Preferred k))
  | .append _ | .acceptCell _ | .removeCell _ | .resetCount _ => isTrue trivial

section Preferred
omit [Blake3 H]

theorem preferred_iff :
    c.Preferred hash ↔ ∃ set, c.cs.lookup hash = some set ∧ set.pref = hash := by
  unfold Preferred isPreferred
  cases c.cs.lookup hash <;> simp [ConflictSet.isPreferred]

theorem preferred_of_lookup {set : ConflictSet H} (known : c.cs.lookup hash = some set) :
    c.Preferred hash ↔ set.pref = hash := by
  simp [preferred_iff, known]

/-- A graph whose sets have shrunk is as exclusive as before. -/
theorem Exclusive.shrink (exclusive : Exclusive c)
    (sets : ∀ k set', c'.cs.lookup k = some set' → ∃ set, c.cs.lookup k = some set ∧ set'.conflicts
      ⊆ set.conflicts ∧ set'.pref = set.pref) : Exclusive c' := by
  have back : ∀ k, c'.Preferred k → c.Preferred k := by
    intro k preferred
    obtain ⟨set', found, pref⟩ := preferred_iff.mp preferred
    obtain ⟨set, known, _, same⟩ := sets k set' found
    exact preferred_iff.mpr ⟨set, known, same ▸ pref⟩
  intro t u set' ne found member both
  obtain ⟨set, known, sub, _⟩ := sets t set' found
  exact exclusive t u set ne known (sub member) ⟨back t both.1, back u both.2⟩

theorem update_pref (hash : H) (d1 d2 : Nat) (set : ConflictSet H) :
    (set.update hash d1 d2).pref = if d1 > d2 then hash else set.pref := by
  unfold ConflictSet.update
  by_cases d : d1 > d2 <;> simp only [d, if_true, if_false] <;> split <;> try split
  all_goals rfl

end Preferred

omit [Blake3 H] in
theorem Cut.exclusive {R : Finset H} (cut : Cut R c c') (exclusive : Exclusive c) :
    Exclusive c' := by
  refine exclusive.shrink fun k set' found => ?_
  obtain ⟨set, known, _, rfl⟩ := cut.sets found
  exact ⟨set, known, Finset.sdiff_subset, rfl⟩

/-- The accepted cell is preferred afterwards, and has no conflicts left. -/
theorem Settled.exclusive {set : ConflictSet H} (ok : Consistent c)
    (settled : Settled c hash set c') (exclusive : Exclusive c) : Exclusive c' := by
  have ok' := settled.consistent ok
  obtain ⟨c₁, cut, eq⟩ := settled.cut
  have exclusive₁ := cut.exclusive exclusive
  have own : c'.cs.lookup hash = some (acceptedSet hash set) := by rw [settled.cs, if_pos rfl]
  have other : ∀ k, k ≠ hash → c'.cs.lookup k = c₁.cs.lookup k := by
    intro k ne
    rw [eq, HashMap.lookup_insert_ite, if_neg ne]
  -- nothing else has the accepted cell in its set, and its own set is a singleton
  have alone : ∀ {k set'}, c'.cs.lookup k = some set' → hash ∈ set'.conflicts → k = hash := by
    intro k set' found member
    obtain ⟨back, known, inside⟩ := ok'.symm k set' found hash member
    rw [own] at known
    cases known
    simpa [acceptedSet, ConflictSet.new] using inside
  intro t u set' ne found member both
  by_cases ht : t = hash
  · subst ht
    rw [own] at found
    cases found
    exact ne (by simpa [acceptedSet, ConflictSet.new, eq_comm] using member)
  · by_cases hu : u = hash
    · subst hu
      exact ht (alone found member)
    · have same : ∀ k, k ≠ hash → c'.Preferred k → c₁.Preferred k := by
        intro k hk preferred
        simpa only [preferred_iff, other k hk] using preferred
      rw [other t ht] at found
      exact exclusive₁ t u set' ne found member ⟨same t ht both.1, same u hu both.2⟩

/-- A new cell is preferred if it has no conflicts, or if the first conflict still
names it. Nobody else's preference changes. -/
theorem Inserted.exclusive_iff {cell : Cell H} (ok : Consistent c) (ins : Inserted c cell c')
    (exclusive : Exclusive c) : Exclusive c' ↔ OneSided c (.insertCell cell) := by
  have entry : c'.cs.lookup cell.hash = some (c.freshSet cell) := by rw [ins.cs, if_pos rfl]
  have old : ∀ k, k ≠ cell.hash → (c'.Preferred k ↔ c.Preferred k) := by
    intro k ne
    rw [preferred_iff, preferred_iff, ins.cs, if_neg ne]
    split
    · cases c.cs.lookup k <;> simp [ConflictSet.joined]
    · rfl
  have apart : ∀ k ∈ c.conflictsOf cell, k ≠ cell.hash := by
    intro k conflict
    obtain ⟨set, known⟩ := Finmap.mem_iff.mp (ins.linked k conflict)
    exact ins.ne_of_known ok known
  constructor
  · intro exclusive' first found names k conflict preferred
    have named : c'.Preferred cell.hash := by
      rw [preferred_of_lookup entry, freshSet, Option.mem_def.mp found]
      exact names
    have member : k ∈ (c.freshSet cell).conflicts := by
      rw [ins.freshSet_conflicts]
      exact Finset.mem_insert_of_mem conflict
    exact exclusive' cell.hash k _ (apart k conflict).symm entry member
      ⟨named, (old k (apart k conflict)).mpr preferred⟩
  · intro oneSided t u set' ne found member both
    have guard : ∀ k ∈ c.conflictsOf cell, c'.Preferred cell.hash → ¬ c.Preferred k := by
      intro k conflict named
      obtain ⟨first, at_first⟩ := ins.first (Finset.ne_empty_of_mem conflict)
      rw [preferred_of_lookup entry, freshSet, at_first] at named
      exact oneSided first at_first named k conflict
    rcases ins.sets found with ⟨rfl, rfl⟩ | ⟨ht, set, known, rfl⟩
    · rw [ins.freshSet_conflicts, Finset.mem_insert] at member
      rcases member with rfl | conflict
      · exact ne rfl
      · exact guard u conflict both.1 ((old u ne.symm).mp both.2)
    · have before : u ∉ set.conflicts := by
        intro inside
        obtain ⟨_, there, _⟩ := ok.symm t set known u inside
        exact exclusive t u set ne known inside
          ⟨(old t ht).mp both.1, (old u (ins.ne_of_known ok there)).mp both.2⟩
      split at member
      · rename_i conflict
        rcases Finset.mem_insert.mp member with rfl | inside
        · exact guard t conflict both.2 ((old t ht).mp both.1)
        · exact before inside
      · exact before member

/-- Making a cell preferred is safe exactly if none of its conflicts is. -/
theorem prefer_exclusive_iff {set set' : ConflictSet H} (ok : Consistent c)
    (exclusive : Exclusive c) (known : c.cs.lookup hash = some set)
    (eq : c' = { c with cs := c.cs.insert hash set' }) (same : set'.conflicts = set.conflicts)
    (pref : set'.pref = hash) : Exclusive c' ↔ ∀ k ∈ set.conflicts, k ≠ hash → ¬ c.Preferred k := by
  have lookup : ∀ k, c'.cs.lookup k = if k = hash then some set' else c.cs.lookup k := by
    intro k
    rw [eq, HashMap.lookup_insert_ite]
  have entry : c'.cs.lookup hash = some set' := by rw [lookup, if_pos rfl]
  have old : ∀ k, k ≠ hash → (c'.Preferred k ↔ c.Preferred k) := by
    intro k ne
    rw [preferred_iff, preferred_iff, lookup, if_neg ne]
  constructor
  · intro exclusive' k member ne preferred
    exact exclusive' hash k set' ne.symm entry (same ▸ member)
      ⟨(preferred_of_lookup entry).mpr pref, (old k ne).mpr preferred⟩
  · intro alone t u other ne found member both
    by_cases ht : t = hash
    · subst ht
      rw [entry] at found
      cases found
      exact alone u (same ▸ member) ne.symm ((old u ne.symm).mp both.2)
    · rw [lookup, if_neg ht] at found
      have preferred := (old t ht).mp both.1
      by_cases hu : u = hash
      · subst hu
        obtain ⟨set₁, known₁, back⟩ := ok.symm t other found u member
        rw [known] at known₁
        cases known₁
        exact alone t back ht preferred
      · exact exclusive t u other ne found member ⟨preferred, (old u hu).mp both.2⟩

theorem Effect.exclusive_iff {x : Call H} (ok : Consistent c) (exclusive : Exclusive c)
    (effect : Effect c x c') : Exclusive c' ↔ OneSided c x := by
  cases effect with
  | append order ids => exact ⟨fun _ => trivial, fun _ => exclusive⟩
  | insertCell ins => exact ins.exclusive_iff ok exclusive
  | acceptCell settled => exact ⟨fun _ => trivial, fun _ => settled.exclusive ok exclusive⟩
  | removeCell cut => exact ⟨fun _ => trivial, fun _ => cut.exclusive exclusive⟩
  | @updateConflictSet hash d1 d2 set known =>
    by_cases d : d1 > d2
    · have pref : (set.update hash d1 d2).pref = hash := by rw [update_pref, if_pos d]
      rw [prefer_exclusive_iff ok exclusive known rfl (by simp) pref]
      constructor
      · intro alone _ set' known' k member ne
        obtain rfl : set = set' := by simpa [known] using known'
        exact alone k member ne
      · exact fun oneSided => oneSided d set known
    · refine ⟨fun _ more => absurd more d, fun _ => exclusive.shrink fun k set' found => ?_⟩
      rcases HashMap.lookup_insert_some found with ⟨hk, rfl⟩ | ⟨_, old⟩
      · exact ⟨set, hk ▸ known, by simp, by rw [update_pref, if_neg d]⟩
      · exact ⟨set', old, subset_rfl, rfl⟩
  | @resetCount hash set known =>
    refine ⟨fun _ => trivial, fun _ => exclusive.shrink fun k set' found => ?_⟩
    rcases HashMap.lookup_insert_some found with ⟨hk, rfl⟩ | ⟨_, old⟩
    · exact ⟨set, hk ▸ known, subset_rfl, rfl⟩
    · exact ⟨set', old, subset_rfl, rfl⟩

/-- Along successful calls preference is exclusive in every state exactly if every
call meets the condition. -/
theorem preference_exclusive_iff (order : HashOrder H) (genesis : Finset (CellId H))
    (steps : List (ConflictGraph H × HashOrder H × Call H)) (c : ConflictGraph H)
    (run : Run callOk (new order genesis) steps c) :
    (∀ s ∈ states steps c, Exclusive s) ↔ Meets (fun c x => OneSided c x.2) steps := by
  refine run.exact _ Consistent Exclusive ⟨new_consistent order genesis, ?_⟩ ?_
  · intro t u set _ found
    simp [new] at found
  · intro u x v ok exclusive taken
    have effect := callOk_effect ok taken
    exact ⟨effect.consistent ok, effect.exclusive_iff ok exclusive⟩

/-- Two cells that spend one coin. The second one is inserted with the preference
of the first, and its own update makes it preferred in its own set only. -/
theorem preference_not_exclusive :
    ¬ ∀ (steps : List (ConflictGraph Digest × HashOrder Digest × Call Digest))
      (c : ConflictGraph Digest),
      Run callOk (new ascendingOrder {coin (mint 1)}) steps c → Exclusive c := by
  intro exclusive
  let t := pay [mint 1] 2
  let u := pay [mint 1] 3
  have found : (exec callOk (new ascendingOrder {coin (mint 1)})
      [(ascendingOrder, .insertCell t), (ascendingOrder, .insertCell u),
        (ascendingOrder, .updateConflictSet u.hash 1 0)]).any (fun r =>
          decide (r.2.Preferred t.hash ∧ r.2.Preferred u.hash ∧ t.hash ≠ u.hash ∧
            ∃ set ∈ r.2.cs.lookup t.hash, u.hash ∈ set.conflicts)) = true := by
    decide +kernel
  obtain ⟨steps, c, run, both⟩ := exec_any found
  obtain ⟨first, second, ne, set, known, member⟩ := of_decide_eq_true both
  exact exclusive steps c run t.hash u.hash set ne known member ⟨first, second⟩

theorem preference_exclusive_accept :
    ∃ (steps : List (ConflictGraph Digest × HashOrder Digest × Call Digest))
      (c : ConflictGraph Digest),
      Run callOk (new ascendingOrder {coin (mint 1)}) steps c ∧ steps.length = 4 ∧
        ∀ s ∈ states steps c, Exclusive s := by
  let t := pay [mint 1] 2
  let u := pay [mint 1] 3
  have found : (exec callOk (new ascendingOrder {coin (mint 1)})
      [(ascendingOrder, .insertCell t), (ascendingOrder, .insertCell u),
        (ascendingOrder, .updateConflictSet t.hash 1 0), (ascendingOrder, .acceptCell t)]).any
          (fun r => decide (r.1.length = 4 ∧ ∀ x ∈ r.1, OneSided x.1 x.2.2)) = true := by
    decide +kernel
  obtain ⟨steps, c, run, both⟩ := exec_any found
  obtain ⟨length, meets⟩ := of_decide_eq_true both
  exact ⟨steps, c, run, length, (preference_exclusive_iff _ _ steps c run).mpr meets⟩

end Subzero.ConflictGraph
