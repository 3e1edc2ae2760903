import Mathlib.Logic.Function.Basic
import Subzero.Graph.Shrink
import Subzero.Ideal

/-! The confidence counter against the updates that a cell has had. A cell that
enters the graph with a conflict starts with the counter of that conflict. -/
namespace Subzero.ConflictGraph
variable {H : Type} [DecidableEq H] [Blake3 H]

/-- A conflict graph with, for every hash, the number of update calls since the
later of its last insertion and its last reset. -/
structure Tracked (H : Type) where
  graph : ConflictGraph H
  earned : H → Nat

def Tracked.call (t : Tracked H) (x : HashOrder H × Call H) : Option (Tracked H) :=
  (t.graph.callAny x).map fun c => ⟨c,
    match x.2 with
    | .insertCell cell =>
      if (t.graph.callOk x).isSome then Function.update t.earned cell.hash 0 else t.earned
    | .updateConflictSet hash _ _ => Function.update t.earned hash (t.earned hash + 1)
    | .resetCount hash => Function.update t.earned hash 0
    | _ => t.earned⟩

def Tracked.new (order : HashOrder H) (genesis : Finset (CellId H)) : Tracked H :=
  ⟨.new order genesis, fun _ => 0⟩

def Earned (t : Tracked H) : Prop :=
  ∀ hash cnt, t.graph.getConfidence hash = .ok cnt → cnt ≤ t.earned hash

/-- The conflict whose counter a new cell takes over has counted nothing. A call
that is refused takes over nothing. -/
def FreshCount (c : ConflictGraph H) : Call H → Prop
  | .insertCell cell => cell.hash ∉ c.cells → (∀ id ∈ cell.consumed, id ∈ c.vertices) →
      ∀ first ∈ c.firstConflict cell, first.cnt = 0
  | _ => True

instance (c : ConflictGraph H) : (x : Call H) → Decidable (FreshCount c x)
  | .insertCell cell => inferInstanceAs (Decidable (cell.hash ∉ c.cells →
      (∀ id ∈ cell.consumed, id ∈ c.vertices) → ∀ first ∈ c.firstConflict cell, first.cnt = 0))
  | .append _ | .acceptCell _ | .removeCell _ | .updateConflictSet _ _ _ | .resetCount _ =>
    isTrue trivial

omit [Blake3 H] in
theorem Earned.shrinks {c c' : ConflictGraph H} {earned : H → Nat}
    (shrinks : Shrinks (fun _ => True) c c') (h : Earned ⟨c, earned⟩) : Earned ⟨c', earned⟩ := by
  intro hash cnt confidence
  unfold getConfidence at confidence
  split at confidence
  · rename_i set' found
    cases confidence
    obtain ⟨set, known, eq, _⟩ := shrinks.below hash set' found
    exact h hash set'.cnt (by simp [getConfidence, known, eq])
  · cases confidence

omit [Blake3 H] in
theorem getConfidence_ok {c : ConflictGraph H} {hash : H} {cnt : Nat} :
    c.getConfidence hash = .ok cnt ↔ ∃ set, c.cs.lookup hash = some set ∧ set.cnt = cnt := by
  unfold getConfidence
  cases c.cs.lookup hash <;> simp

omit [Blake3 H] in
theorem update_cnt_le (hash : H) (d1 d2 : Nat) (set : ConflictSet H) :
    (set.update hash d1 d2).cnt ≤ set.cnt + 1 := by
  unfold ConflictSet.update
  by_cases d : d1 > d2 <;> simp only [d, if_true, if_false] <;> split <;> try split
  all_goals simp

/-- An insertion that succeeds gives its cell the counter of the first conflict. -/
theorem Inserted.earned_iff {c c' : ConflictGraph H} {cell : Cell H} {earned : H → Nat}
    (ins : Inserted c cell c') (before : Earned ⟨c, earned⟩) :
    Earned ⟨c', Function.update earned cell.hash 0⟩ ↔ FreshCount c (.insertCell cell) := by
  have entry : c'.cs.lookup cell.hash = some (c.freshSet cell) := by rw [ins.cs, if_pos rfl]
  constructor
  · intro after _ _ first found
    have bound := after cell.hash (c.freshSet cell).cnt (getConfidence_ok.mpr ⟨_, entry, rfl⟩)
    simpa [freshSet, Option.mem_def.mp found, ownSet] using bound
  · intro fresh hash cnt confidence
    obtain ⟨set', found, rfl⟩ := getConfidence_ok.mp confidence
    rcases ins.sets found with ⟨rfl, rfl⟩ | ⟨ne, set, known, rfl⟩
    · rw [freshSet]
      split
      · exact Nat.zero_le _
      · rename_i first found_first
        simp [ownSet, fresh ins.fresh ins.known first found_first]
    · have bound := before hash set.cnt (getConfidence_ok.mpr ⟨set, known, rfl⟩)
      simp only [Function.update_of_ne ne]
      split <;> exact bound

omit [Blake3 H] in
/-- Rewriting one conflict set keeps the bound if its new counter is within it. -/
theorem mutateSet_earned {c c' : ConflictGraph H} {hash : H} {f : ConflictSet H → ConflictSet H}
    {earned : H → Nat} {n : Nat} (left : (c.mutateSet hash f).state? = some c')
    (stored : Stored c) (before : Earned ⟨c, earned⟩)
    (within : ∀ set, c.cs.lookup hash = some set → (f set).cnt ≤ n) :
    Stored c' ∧ Earned ⟨c', Function.update earned hash n⟩ := by
  rcases mutateSet_cases left with ⟨rfl, unknown⟩ | ⟨set, known, rfl, _⟩
  · refine ⟨stored, fun k cnt confidence => ?_⟩
    have ne : k ≠ hash := by
      rintro rfl
      obtain ⟨set, found, _⟩ := getConfidence_ok.mp confidence
      rw [unknown] at found
      cases found
    simp only [Function.update_of_ne ne]
    exact before k cnt confidence
  · refine ⟨fun k member => ?_, fun k cnt confidence => ?_⟩
    · rcases Finmap.mem_insert.mp member with rfl | member
      · exact stored _ (Finmap.mem_of_lookup_eq_some known)
      · exact stored k member
    · obtain ⟨set', found, rfl⟩ := getConfidence_ok.mp confidence
      rcases HashMap.lookup_insert_some found with ⟨rfl, rfl⟩ | ⟨hk, old⟩
      · simpa using within set known
      · simp only [Function.update_of_ne hk]
        exact before k set'.cnt (getConfidence_ok.mpr ⟨set', old, rfl⟩)

theorem Tracked.call_exact {t t' : Tracked H} {x : HashOrder H × Call H} (stored : Stored t.graph)
    (before : Earned t) (taken : t.call x = some t') :
    Stored t'.graph ∧ (Earned t' ↔ FreshCount t.graph x.2) := by
  obtain ⟨c, earned⟩ := t
  obtain ⟨order, request⟩ := x
  obtain ⟨c', left, rfl⟩ := Option.map_eq_some_iff.mp taken
  cases request with
  | append ids => cases left; exact ⟨stored, fun _ => trivial, fun _ => before⟩
  | insertCell cell =>
    rcases insertCell_cases order stored left with ⟨eq, ins⟩ | ⟨⟨e, eq⟩, ref⟩
    · have done : (c.callOk (order, .insertCell cell)).isSome := by
        simp [callOk, ConflictGraph.call, eq, Outcome.unwrap]
      simp only [done, if_true]
      refine ⟨fun k member => ?_, ins.earned_iff before⟩
      rw [ins.cells, Finmap.mem_insert]
      by_cases hk : k = cell.hash
      · exact Or.inl hk
      · obtain ⟨set', found⟩ := Finmap.mem_iff.mp member
        rcases ins.sets found with ⟨eq, _⟩ | ⟨_, set, known, _⟩
        · exact absurd eq hk
        · exact Or.inr (stored k (Finmap.mem_of_lookup_eq_some known))
    · have failed : (c.callOk (order, .insertCell cell)).isSome = false := by
        simp [callOk, ConflictGraph.call, eq, Outcome.unwrap]
      simp only [failed]
      refine ⟨fun k member => ?_, fun _ fresh known => ?_, fun _ => ?_⟩
      · rw [ref.cells, Finmap.mem_insert]
        exact Or.inr (stored k (ref.cs ▸ member))
      · rcases ref.refused with dup | ⟨id, consumes, missing⟩
        · exact absurd dup fresh
        · exact absurd (known id consumes) missing
      · exact before.shrinks (.of_cs _ ref.cs)
  | acceptCell cell =>
    have inner : (acceptCell order c cell).state? = some c' := by
      simp only [callAny, ConflictGraph.call] at left
      cases eq : acceptCell order c cell <;> simp_all
    obtain ⟨shrinks, stored', _⟩ := acceptCell_shrinks order (fun _ _ _ _ _ => trivial) inner
    exact ⟨stored' stored, fun _ => trivial, fun _ => before.shrinks shrinks⟩
  | removeCell hash =>
    obtain ⟨shrinks, stored', _⟩ := removeCell_shrinks order (X := fun _ => True) trivial left
    exact ⟨stored' stored, fun _ => trivial, fun _ => before.shrinks shrinks⟩
  | updateConflictSet hash d1 d2 =>
    have step := mutateSet_earned left stored before (n := earned hash + 1) fun set known =>
      (update_cnt_le hash d1 d2 set).trans
        (Nat.succ_le_succ (before hash set.cnt (getConfidence_ok.mpr ⟨set, known, rfl⟩)))
    exact ⟨step.1, fun _ => trivial, fun _ => step.2⟩
  | resetCount hash =>
    have step := mutateSet_earned left stored before (n := 0) fun _ _ => Nat.le_refl 0
    exact ⟨step.1, fun _ => trivial, fun _ => step.2⟩

/-- Along any calls, failing ones included, confidence is earned in every state
exactly if every insertion meets the condition. -/
theorem confidence_earned_iff (order : HashOrder H) (genesis : Finset (CellId H))
    (steps : List (Tracked H × HashOrder H × Call H)) (t : Tracked H)
    (run : Run Tracked.call (Tracked.new order genesis) steps t) :
    (∀ s ∈ states steps t, Earned s) ↔ Meets (fun s x => FreshCount s.graph x.2) steps := by
  refine run.exact _ (fun s => Stored s.graph) Earned ⟨?_, ?_⟩ ?_
  · exact fun _ member => absurd member Finmap.notMem_empty
  · intro hash cnt confidence
    obtain ⟨set, found, _⟩ := getConfidence_ok.mp confidence
    simp [Tracked.new, ConflictGraph.new] at found
  · exact fun u x v stored earned taken => Tracked.call_exact stored earned taken

/-- A cell is inserted and updated, and a conflicting one inserted after it has
confidence without an update of its own. -/
theorem confidence_not_earned :
    ¬ ∀ (steps : List (Tracked Digest × HashOrder Digest × Call Digest)) (t : Tracked Digest),
      Run Tracked.call (Tracked.new ascendingOrder {coin (mint 1)}) steps t → Earned t := by
  intro earned
  let t := pay [mint 1] 2
  let u := pay [mint 1] 3
  have found : (exec Tracked.call (Tracked.new ascendingOrder {coin (mint 1)})
      [(ascendingOrder, .insertCell t), (ascendingOrder, .updateConflictSet t.hash 1 0),
        (ascendingOrder, .insertCell u)]).any (fun r =>
          decide (r.2.graph.getConfidence u.hash = .ok 1 ∧ r.2.earned u.hash = 0)) = true := by
    decide +kernel
  obtain ⟨steps, last, run, both⟩ := exec_any found
  obtain ⟨confidence, none_earned⟩ := of_decide_eq_true both
  have bound : 1 ≤ last.earned u.hash := earned steps last run u.hash 1 confidence
  have zero : last.earned u.hash = 0 := none_earned
  omega

theorem confidence_earned_update :
    ∃ (steps : List (Tracked Digest × HashOrder Digest × Call Digest)) (t : Tracked Digest),
      Run Tracked.call (Tracked.new ascendingOrder {coin (mint 1)}) steps t ∧ steps.length = 4 ∧
        ∀ s ∈ states steps t, Earned s := by
  let t := pay [mint 1] 2
  let u := pay [mint 1] 3
  have found : (exec Tracked.call (Tracked.new ascendingOrder {coin (mint 1)})
      [(ascendingOrder, .insertCell t), (ascendingOrder, .insertCell u),
        (ascendingOrder, .updateConflictSet t.hash 1 0), (ascendingOrder, .insertCell u)]).any
          (fun r => decide (r.1.length = 4 ∧ ∀ x ∈ r.1, FreshCount x.1.graph x.2.2)) = true := by
    decide +kernel
  obtain ⟨steps, last, run, both⟩ := exec_any found
  obtain ⟨length, meets⟩ := of_decide_eq_true both
  exact ⟨steps, last, run, length, (confidence_earned_iff _ _ steps last run).mpr meets⟩

end Subzero.ConflictGraph
