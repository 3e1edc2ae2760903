import Subzero.Hail.Growth

/-! How deep a block has to be in a chain without rivals to be final. A query that succeeds
makes one more block final at most, the first one below the tip, so the final blocks follow
the tip at a fixed distance. Genesis is never among them. -/
namespace Subzero

section Walk
variable {V : Type} [DecidableEq V] {adj : V → Option (List V)}
  {join : List V → List V → List V} (perm : ∀ fresh work, (join fresh work).Perm (fresh ++ work))
include perm

/-- A vertex that a traversal visits was there at the start, or is a neighbour of one that
was visited before it. -/
theorem walk_earlier (n : Nat) (work : List V) (seen : Finset V) {front back : List V} {x : V}
    (visited : (walk adj join n work seen).visited = front ++ x :: back) :
    x ∈ work ∨ ∃ y ∈ front, Edge adj y x := by
  induction n generalizing work seen front with
  | zero => simp [walk] at visited
  | succ n ih =>
    cases work with
    | nil => simp [walk] at visited
    | cons v work =>
      cases entry : adj v with
      | none => simp [walk, entry] at visited
      | some es =>
        simp only [walk, entry] at visited
        cases front with
        | nil => exact .inl (List.mem_cons.mpr (.inl (List.cons.inj visited).1.symm))
        | cons y front =>
          obtain ⟨rfl, rest⟩ := List.cons.inj visited
          rcases ih _ _ rest with waiting | ⟨y, earlier, edge⟩
          · rcases List.mem_append.mp ((perm _ _).mem_iff.mp waiting) with fresh | old
            · exact .inr ⟨v, List.mem_cons_self, es, entry, ((mem_unmarked _ _ _).mp fresh).1⟩
            · exact .inl (List.mem_cons_of_mem v old)
          · exact .inr ⟨y, List.mem_cons_of_mem v earlier, edge⟩

end Walk

namespace Hail
variable {H : Type} [LinearOrder H] [BlockDigest H] [Sortition H]
variable {order : HailOrder H} {s' : Hail H} {k : Nat}

/-- Final before, or not final. -/
def Passed (s : Hail H) (v : Vertex H) : Prop :=
  v ∈ s.acceptedVertices ∨ s.isAccepted v = .ok false

/-- The first vertex of a list that is final and was not before, if there is one. -/
inductive Finds (s : Hail H) : List (Vertex H) → Option (Vertex H) → Prop where
  | none {vxs : List (Vertex H)} (all : ∀ v ∈ vxs, s.Passed v) : Finds s vxs none
  | some {front back : List (Vertex H)} {v : Vertex H} (new : v ∉ s.acceptedVertices)
      (final : s.isAccepted v = .ok true) (before : ∀ u ∈ front, s.Passed u) :
      Finds s (front ++ v :: back) (some v)

omit [BlockDigest H] [Sortition H] in
theorem Finds.skip {s : Hail H} {x : Vertex H} {vxs : List (Vertex H)} {r : Option (Vertex H)}
    (passed : s.Passed x) (finds : s.Finds vxs r) : s.Finds (x :: vxs) r := by
  cases finds with
  | none all => exact .none (List.forall_mem_cons.mpr ⟨passed, all⟩)
  | @some front back v new final before =>
    change s.Finds ((x :: front) ++ v :: back) (Option.some v)
    exact .some new final (List.forall_mem_cons.mpr ⟨passed, before⟩)

omit [BlockDigest H] [Sortition H] in
theorem firstAccepted_finds {s : Hail H} {vxs : List (Vertex H)} {r : Option (Vertex H)}
    (looked : s.firstAccepted vxs = .ok r) : s.Finds vxs r := by
  induction vxs with
  | nil =>
    cases looked
    exact .none (by simp)
  | cons x vxs ih =>
    unfold firstAccepted at looked
    split at looked
    · rename_i old
      exact .skip (.inl old) (ih looked)
    · rename_i new
      split at looked
      · cases looked
      · rename_i final
        cases looked
        change s.Finds ([] ++ x :: vxs) (some x)
        exact .some new final (by simp)
      · rename_i open'
        exact .skip (.inr open') (ih looked)

/-- A query that succeeds reports the first vertex in the ancestry of its block that is
final now and was not before. -/
theorem passQuery_finds {s s' : Hail H} {block : HailBlock H} {accepted : Option (Vertex H)}
    (passed : s.passQuery order block = some (accepted, s')) :
    (∃ t : Hail H, t.acceptedVertices = s.acceptedVertices ∧
      (∀ v, t.isAccepted v = s'.isAccepted v) ∧ t.Finds (s.dag.dfs block.vertex) accepted) ∧
    ∀ v, v ∈ s'.acceptedVertices ↔ accepted = some v ∨ v ∈ s.acceptedVertices := by
  unfold passQuery at passed
  split at passed
  · cases passed
  · rename_i d chit
    have chit := Outcome.unwrap_eq_some.mp chit
    split at passed
    · cases passed
    · rename_i t updated
      obtain ⟨m, _, rfl⟩ := forEach_tally.mp (Outcome.unwrap_eq_some.mp updated)
      unfold nextAcceptedVertex at passed
      let t := { s with dag := d, conflictMap := m }.advance order block
      cases looked : t.firstAccepted (t.dag.dfs block.vertex) with
      | error e =>
        rw [looked] at passed
        cases passed
      | ok r =>
        rw [looked] at passed
        have finds := firstAccepted_finds looked
        rw [show t.dag.dfs block.vertex = s.dag.dfs block.vertex from setChit_dfs chit _] at finds
        cases r with
        | none =>
          cases passed
          exact ⟨⟨t, rfl, fun _ => rfl, finds⟩, by simp [advance]⟩
        | some v =>
          cases passed
          refine ⟨⟨t, rfl, fun u => ?_, finds⟩, fun u => ?_⟩
          · symm
            apply isAccepted_same <;> rfl
          · simp [advance, eq_comm]

section
variable {blocks : Nat → HailBlock H} {n i j : Nat} {s : Hail H}

omit [Sortition H] in
theorem Grown.child_before (chain : Chain n blocks) (hi : i ≤ n) (grown : Grown blocks i j s)
    {k m : Nat} (hk : k ≤ i) (below : m < k) {front back : List (Vertex H)}
    (split : s.dag.dfs (blocks k).vertex = front ++ (blocks m).vertex :: back) :
    (blocks (m + 1)).vertex ∈ front := by
  rcases walk_earlier DAG.pushStack_perm _ _ _ split with root | ⟨y, earlier, edge⟩
  · have := chain.vertex_inj (by omega) (by omega) (List.mem_singleton.mp root)
    omega
  · have listed : y ∈ s.dag.dfs (blocks k).vertex := by
      rw [split]
      exact List.mem_append_left _ earlier
    obtain ⟨c, hc, rfl⟩ := grown.dfs_chain hk listed
    cases c with
    | zero => exact absurd edge (grown.bottom _)
    | succ c =>
      have same := chain.vertex_inj (by omega) (by omega) ((grown.edges c (by omega) _).mp edge)
      rwa [same]

omit [Sortition H] in
/-- In the ancestry of a block the blocks above another one come before it. -/
theorem Grown.dfs_order (chain : Chain n blocks) (hi : i ≤ n) (grown : Grown blocks i j s)
    {k m gap : Nat} (hk : k ≤ i) (below : m + gap + 1 ≤ k) {front back : List (Vertex H)}
    (split : s.dag.dfs (blocks k).vertex = front ++ (blocks m).vertex :: back) :
    (blocks (m + gap + 1)).vertex ∈ front := by
  have child := grown.child_before chain hi hk (by omega) split
  induction gap generalizing m front back with
  | zero => exact child
  | succ gap ih =>
    obtain ⟨before, between, rfl⟩ := List.append_of_mem child
    rw [List.append_assoc, List.cons_append] at split
    have next := grown.child_before chain hi hk (by omega) split
    have above := ih (by omega) split next
    rw [show m + (gap + 1) + 1 = m + 1 + gap + 1 by omega]
    exact List.mem_append_left _ above

omit [Sortition H] in
theorem Grown.isAcceptedBlock_eq (grown : Grown blocks i j s) (hk : k ≤ i) :
    s.isAcceptedBlock (blocks k).vertex = .ok (decide (BETA1 ≤ votesAbove j k)) := by
  refine isAcceptedBlock_ok.mpr ⟨_, grown.sets k hk, ?_⟩
  simp only [Finset.card_singleton, if_true, decide_eq_decide]
  exact (and_iff_right rfl).symm

omit [Sortition H] in
/-- On the chain a block is final if it has enough votes, as its parent has more. -/
theorem Grown.isAccepted_eq (grown : Grown blocks i j s) (hk : k ≤ i) :
    s.isAccepted (blocks k).vertex = .ok (decide (BETA1 ≤ votesAbove j k)) := by
  have own := grown.isAcceptedBlock_eq hk
  obtain ⟨parents, found⟩ := Finmap.mem_iff.mp ((grown.keys _).mpr ⟨k, hk, rfl⟩)
  have below : ∀ p ∈ parents, ∃ m < k, p = (blocks m).vertex := by
    intro p listed
    have edge : s.dag.Parent (blocks k).vertex p := ⟨parents, found, listed⟩
    cases k with
    | zero => exact absurd edge (grown.bottom p)
    | succ k => exact ⟨k, Nat.lt_succ_self k, (grown.edges k (by omega) p).mp edge⟩
  have judged : ∃ all, s.allAccepted parents = .ok all := allAccepted_total fun p listed => by
    obtain ⟨m, hm, rfl⟩ := below p listed
    exact Finmap.mem_of_lookup_eq_some (grown.sets m (by omega))
  obtain ⟨all, decided⟩ := judged
  have more : BETA1 ≤ votesAbove j k → all = true := by
    intro enough
    have every : s.allAccepted parents = .ok true := allAccepted_true.mpr fun p listed => by
      obtain ⟨m, hm, rfl⟩ := below p listed
      rw [grown.isAcceptedBlock_eq (by omega), decide_eq_true]
      unfold votesAbove at enough ⊢
      omega
    exact Except.ok.inj (decided.symm.trans every)
  unfold isAccepted
  simp only [found, decided, own]
  cases all with
  | true => rfl
  | false =>
    have short : ¬ BETA1 ≤ votesAbove j k := fun enough => Bool.false_ne_true (more enough)
    rw [decide_eq_false short]

/-- After `j` queries the final blocks are those from the first one on that have enough
votes, and the tip is the block of the last query. -/
structure Deep (blocks : Nat → HailBlock H) (j : Nat) (s : Hail H) : Prop where
  final : ∀ v, v ∈ s.acceptedVertices ↔ ∃ k, 1 ≤ k ∧ k + BETA1 ≤ j + 1 ∧ v = (blocks k).vertex
  tip : 0 < j → s.lastAcceptedHash = some (blocks j).hash ∧ s.height = (blocks j).vertex.height

/-- The block that the query after `j` others makes final. -/
def nextFinal (blocks : Nat → HailBlock H) (j : Nat) : Option (Vertex H) :=
  if BETA1 ≤ j + 1 then some (blocks (j + 2 - BETA1)).vertex else none

theorem Deep.reports (chain : Chain n blocks) (hi : i ≤ n) (grown : Grown blocks i j s)
    (deep : Deep blocks j s) (hj : j < i) (small : j + 1 < 2 ^ 8) {accepted : Option (Vertex H)}
    (passed : s.passQuery order (blocks (j + 1)) = some (accepted, s')) :
    accepted = nextFinal blocks j := by
  obtain ⟨⟨t, same, verdicts, finds⟩, _⟩ := passQuery_finds passed
  have grown' := grown.completed chain hi hj small passed
  have positive : 0 < BETA1 := by decide
  have verdict : ∀ k ≤ i, t.isAccepted (blocks k).vertex =
      .ok (decide (BETA1 ≤ votesAbove (j + 1) k)) := fun k hk =>
    (verdicts _).trans (grown'.isAccepted_eq hk)
  -- the block at the right distance is final now and was not before
  have due : BETA1 ≤ j + 1 → ¬ t.Passed (blocks (j + 2 - BETA1)).vertex := by
    rintro enough (old | waits)
    · rw [same, deep.final] at old
      obtain ⟨k, _, few, other⟩ := old
      have := chain.vertex_inj (by omega) (by omega) other
      omega
    · rw [verdict _ (by omega)] at waits
      have short := of_decide_eq_false (Except.ok.inj waits)
      unfold votesAbove at short
      omega
  unfold nextFinal
  generalize listed : s.dag.dfs (blocks (j + 1)).vertex = vxs at finds
  cases finds with
  | none all =>
    have few : ¬ BETA1 ≤ j + 1 := fun enough => due enough (all _ (by
      rw [← listed]
      exact (grown.mem_dfs chain hi hj (by omega)).mpr (by omega)))
    rw [if_neg few]
  | @some front back v new final before =>
    obtain ⟨k, hk, rfl⟩ := grown.dfs_chain hj
      (listed ▸ List.mem_append_right front List.mem_cons_self)
    rw [verdict k (by omega)] at final
    have votes := of_decide_eq_true (Except.ok.inj final)
    have enough : BETA1 ≤ j + 1 := by
      unfold votesAbove at votes
      omega
    rw [if_pos enough]
    rcases Nat.eq_zero_or_pos k with rfl | above
    · -- genesis has the votes too, but the block that is due comes first
      have first : (blocks (0 + (j + 1 - BETA1) + 1)).vertex ∈ front :=
        grown.dfs_order chain hi hj (by omega) listed
      rw [show 0 + (j + 1 - BETA1) + 1 = j + 2 - BETA1 by omega] at first
      exact absurd (before _ first) (due enough)
    · have last : ¬ k + BETA1 ≤ j + 1 := fun early =>
        new (same ▸ (deep.final _).mpr ⟨k, above, early, rfl⟩)
      unfold votesAbove at votes
      rw [show k = j + 2 - BETA1 by omega]

theorem Deep.completed (chain : Chain n blocks) (hi : i ≤ n) (grown : Grown blocks i j s)
    (deep : Deep blocks j s) (hj : j < i) (small : j + 1 < 2 ^ 8) {accepted : Option (Vertex H)}
    (passed : s.passQuery order (blocks (j + 1)) = some (accepted, s')) :
    Deep blocks (j + 1) s' := by
  obtain ⟨_, height, hash, _⟩ := passQuery_votes passed
  refine ⟨fun v => ?_, fun _ => ⟨hash, height⟩⟩
  rw [(passQuery_finds passed).2, deep.reports chain hi grown hj small passed, deep.final,
    nextFinal]
  have positive : 0 < BETA1 := by decide
  constructor
  · rintro (now | ⟨k, above, early, rfl⟩)
    · split at now
      · cases now
        exact ⟨j + 2 - BETA1, by omega, by omega, rfl⟩
      · cases now
    · exact ⟨k, above, by omega, rfl⟩
  · rintro ⟨k, above, early, rfl⟩
    by_cases before : k + BETA1 ≤ j + 1
    · exact .inr ⟨k, above, before, rfl⟩
    · rw [if_pos (by omega), show k = j + 2 - BETA1 by omega]
      exact .inl rfl

omit [Sortition H] in
theorem Deep.received (deep : Deep blocks j s) {block : HailBlock H}
    (inserted : s.insert order block = .ok () s') : Deep blocks j s' := by
  rcases insert_cases (congrArg Outcome.state? inserted) with ⟨rfl, _⟩ | ⟨adds, _, height, hash⟩
  · exact deep
  · refine ⟨fun v => ?_, fun some => ?_⟩
    · rw [adds.accepted]
      exact deep.final v
    · rw [height, hash]
      exact deep.tip some

/-- The first committee makes no block final. -/
theorem Deep.start {nodeId : Id} {msg : LiveCommittee H}
    (started : (Hail.new nodeId).liveCommittee order msg = some s) : Deep blocks 0 s := by
  obtain ⟨⟨_, t⟩, inserted, rfl⟩ := Option.map_eq_some_iff.mp started
  have left := congrArg Outcome.state? (Outcome.unwrap_eq_some.mp inserted)
  have none : t.acceptedVertices = ∅ := by
    rcases insert_cases left with ⟨rfl, _⟩ | ⟨adds, _⟩
    · rfl
    · rw [adds.accepted]
      rfl
  refine ⟨fun v => ?_, fun some => absurd some (Nat.lt_irrefl 0)⟩
  have positive : 1 < BETA1 := by decide
  simp only [none, Finset.notMem_empty, false_iff]
  rintro ⟨k, _, early, _⟩
  omega

end

end Hail
end Subzero
