import Subzero.Hail.Sample
import Subzero.Hail.Steps

/-! One final block per height. A final block stays the preferred one of its height
as long as no rival gets more conviction and the counter of the height, which all of
them share, does not overflow. -/
namespace Subzero
variable {H : Type} [LinearOrder H] [BlockDigest H] [Sortition H]

namespace Hail

/-- The block is preferred at its height and the counter there has reached the lower
threshold. -/
def Settled (m : ConflictMap H) (a : Vertex H) : Prop :=
  ∃ cs, m.lookup a.height = some cs ∧ cs.pref = a.blockHash ∧ BETA1 ≤ cs.cnt

/-- The DAG in which the chit of a vertex is set. -/
def chitSet (d : DAG (Vertex H)) (root : Vertex H) : Option (DAG (Vertex H)) :=
  ((d.setChit root 1).unwrap).map Prod.snd

/-- A conviction that exceeds another one. -/
def outweighs (d : DAG (Vertex H)) (vx a : Vertex H) : Bool :=
  match d.conviction vx, d.conviction a with
  | some (.ok d1), some (.ok d2) => d2 < d1
  | _, _ => false

/-- How many of the vertices are at a height. -/
def countAt (h : BlockHeight) (vxs : List (Vertex H)) : Nat := vxs.countP (·.height = h)

/-- With the chit of the queried block set, no rival of a final block among that
block and its ancestry outweighs the final one; and the counter at the height of the
final one has room for the votes. -/
def Upholds (s : Hail H) (root : Vertex H) : Prop :=
  ∀ a ∈ s.acceptedVertices,
    (∀ d ∈ chitSet s.dag root, ∀ vx ∈ s.dag.dfs root, vx.height = a.height →
      outweighs d vx a = false) ∧
    ∀ cs ∈ s.conflictMap.lookup a.height, cs.cnt + countAt a.height (s.dag.dfs root) < 2 ^ 8

instance (s : Hail H) (root : Vertex H) : Decidable (s.Upholds root) :=
  inferInstanceAs (Decidable (∀ a ∈ s.acceptedVertices,
    (∀ d ∈ chitSet s.dag root, ∀ vx ∈ s.dag.dfs root, vx.height = a.height →
      outweighs d vx a = false) ∧
    ∀ cs ∈ s.conflictMap.lookup a.height, cs.cnt + countAt a.height (s.dag.dfs root) < 2 ^ 8))

omit [BlockDigest H] [Sortition H] in
/-- A vote that does not outweigh the preferred block leaves the preference, and the
counter goes up by at most one unless it overflows. -/
theorem voteFor_holds {cs : ConflictSet H} {d1 d2 : Nat} (hash : H) (less : ¬ d2 < d1)
    (room : cs.cnt + 1 < 2 ^ 8) :
    (cs.voteFor hash d1 d2).pref = cs.pref ∧ cs.cnt ≤ (cs.voteFor hash d1 d2).cnt ∧
      (cs.voteFor hash d1 d2).cnt ≤ cs.cnt + 1 := by
  unfold ConflictSet.voteFor
  simp only [gt_iff_lt, less, if_false]
  split
  · exact ⟨rfl, Nat.le_refl _, Nat.le_succ _⟩
  · have exact : (cs.cnt + 1) % 2 ^ 8 = cs.cnt + 1 := Nat.mod_eq_of_lt room
    simp only [exact]
    exact ⟨trivial, Nat.le_succ _, Nat.le_refl _⟩

omit [BlockDigest H] [Sortition H] in
theorem Tally.settled {d : DAG (Vertex H)} {vxs : List (Vertex H)} {m m' : ConflictMap H}
    {a : Vertex H} (tally : Tally d vxs m m')
    (light : ∀ vx ∈ vxs, vx.height = a.height → outweighs d vx a = false)
    (room : ∃ cs, m.lookup a.height = some cs ∧ cs.pref = a.blockHash ∧ BETA1 ≤ cs.cnt ∧
      cs.cnt + countAt a.height vxs < 2 ^ 8) : Settled m' a := by
  induction tally with
  | done =>
    obtain ⟨cs, known, pref, enough, _⟩ := room
    exact ⟨cs, known, pref, enough⟩
  | @vote vx rest m m' cs d1 d2 found first second _ ih =>
    refine ih (fun v h => light v (List.mem_cons_of_mem vx h)) ?_
    obtain ⟨set, known, pref, enough, space⟩ := room
    rw [countAt, List.countP_cons] at space
    by_cases here : vx.height = a.height
    · -- the vote is at the height of the final block
      rw [here, known] at found
      obtain rfl : set = cs := Option.some.inj found
      rw [here, pref] at second
      have less : ¬ d2 < d1 := by
        have fair := light vx List.mem_cons_self here
        have same : d.conviction a = some (.ok d2) := second
        simpa [outweighs, first, same] using fair
      simp only [here, decide_true, if_true] at space
      have one : set.cnt + 1 < 2 ^ 8 := by omega
      obtain ⟨keeps, grows, atMost⟩ := voteFor_holds vx.blockHash less one
      refine ⟨_, by rw [here]; exact Finmap.lookup_insert _, keeps.trans pref,
        enough.trans grows, ?_⟩
      rw [countAt]
      omega
    · refine ⟨set, ?_, pref, enough, ?_⟩
      · rw [HashMap.lookup_insert_ite, if_neg (Ne.symm here)]
        exact known
      · rw [countAt]
        omega

omit [Sortition H] in
/-- A block that arrives at the height of a final one does not supersede it. -/
theorem insertBlock_settled {order : Listing H} {m : ConflictMap H} {a : Vertex H}
    (block : Block H) (settled : Settled m a) : Settled (m.insertBlock order block) a := by
  obtain ⟨cs, known, pref, enough⟩ := settled
  unfold ConflictMap.insertBlock
  by_cases here : a.height = block.height
  · -- the preference is chosen anew only while the counter is below `BETA1`
    rw [← here, known]
    have kept : ¬ cs.cnt < BETA1 := Nat.not_lt.mpr enough
    refine ⟨_, Finmap.lookup_insert _, ?_, ?_⟩ <;> simp [ConflictSet.insertHash, kept, pref, enough]
  · split <;>
      exact ⟨cs, by rw [HashMap.lookup_insert_ite, if_neg here]; exact known, pref, enough⟩

omit [BlockDigest H] [Sortition H] in
theorem isAcceptedBlock_ok {s : Hail H} {vx : Vertex H} {b : Bool} :
    s.isAcceptedBlock vx = .ok b ↔ ∃ cs, s.conflictMap.lookup vx.height = some cs ∧
      b = decide (cs.pref = vx.blockHash ∧
        (if cs.conflicts.card = 1 then BETA1 ≤ cs.cnt else BETA2 ≤ cs.cnt)) := by
  unfold isAcceptedBlock ConflictMap.isSingleton ConflictMap.getConfidence ConflictMap.getSet
  cases s.conflictMap.lookup vx.height with
  | none => simp [Except.map]
  | some cs =>
    simp only [Except.map, ConflictSet.isSingleton, Except.ok.injEq, Option.some.injEq,
      exists_eq_left']
    by_cases pref : cs.pref = vx.blockHash
    · by_cases low : BETA1 ≤ cs.cnt
      · by_cases one : cs.conflicts.card = 1 <;> simp [pref, one, low, eq_comm]
      · have high : ¬ BETA2 ≤ cs.cnt := fun h => low ((by decide : BETA1 ≤ BETA2).trans h)
        simp [pref, low, high, eq_comm]
    · simp [pref, BETA1, BETA2, eq_comm]

omit [BlockDigest H] [Sortition H] in
theorem isAccepted_block {s : Hail H} {vx : Vertex H} (final : s.isAccepted vx = .ok true) :
    s.isAcceptedBlock vx = .ok true := by
  unfold isAccepted at final
  split at final
  · cases final
  · split at final
    · cases final
    · cases final
    · exact final

omit [BlockDigest H] [Sortition H] in
theorem isAcceptedBlock_settled {s : Hail H} {vx : Vertex H}
    (final : s.isAcceptedBlock vx = .ok true) : Settled s.conflictMap vx := by
  obtain ⟨cs, known, enough⟩ := isAcceptedBlock_ok.mp final
  obtain ⟨pref, enough⟩ := of_decide_eq_true enough.symm
  refine ⟨cs, known, pref, ?_⟩
  split at enough
  · exact enough
  · exact (by decide : BETA1 ≤ BETA2).trans enough

end Hail

namespace HailActor

/-- The condition on a step: a query that succeeds upholds the final blocks. -/
def Task.Upholds (s : Hail H) : Task H → Prop
  | .complete block acks => s.passes acks = true → s.Upholds block.vertex
  | _ => True

instance (s : Hail H) : (t : Task H) → Decidable (t.Upholds s)
  | .complete block acks =>
    inferInstanceAs (Decidable (s.passes acks = true → s.Upholds block.vertex))
  | .join _ | .receive _ | .generate _ | .propose _ | .idle => isTrue trivial

/-- Every final block is settled. -/
def AllSettled (w : HailActor H) : Prop :=
  ∀ a ∈ w.hail.acceptedVertices, Hail.Settled w.hail.conflictMap a

theorem AllSettled.step {order : HailOrder H} {w w' : HailActor H} {e : HailEvent H}
    (settled : w.AllSettled) (upholds : (w.task e).Upholds w.hail)
    (taken : w.step (order, e) = some w') : w'.AllSettled := by
  rcases (step_does taken).blocks with same | ⟨block, _, adds⟩ | ⟨block, acks, asked, passes, votes⟩
  · intro a member
    rw [same.accepted] at member
    rw [same.map]
    exact settled a member
  · intro a member
    rw [adds.accepted] at member
    rw [adds.map]
    exact Hail.insertBlock_settled block.block (settled a member)
  · rw [asked] at upholds
    have upheld := upholds passes
    -- what was final is upheld; what becomes final passed the check after the votes
    have old : ∀ a ∈ w.hail.acceptedVertices, Hail.Settled w'.hail.conflictMap a := by
      intro a member
      obtain ⟨light, room⟩ := upheld a member
      obtain ⟨cs, known, pref, enough⟩ := settled a member
      have chit : w'.hail.dag ∈ Hail.chitSet w.hail.dag block.vertex := by
        simp [Hail.chitSet, votes.chit, Outcome.unwrap]
      have tally := votes.tally
      rw [Hail.setChit_dfs votes.chit] at tally
      exact tally.settled (light _ chit) ⟨cs, known, pref, enough, room cs known⟩
    intro a member
    rcases votes.accepted with none | ⟨vx, _, final, one⟩
    · exact old a (none ▸ member)
    · rw [one, Finset.mem_insert] at member
      rcases member with rfl | member
      · exact Hail.isAcceptedBlock_settled (Hail.isAccepted_block final)
      · exact old a member

/-- In every run whose successful queries all uphold the final blocks, no height has
two of them. -/
theorem one_final_block (nodeId : Id)
    (steps : List (HailActor H × HailOrder H × HailEvent H)) (w : HailActor H)
    (run : Run step (.started nodeId) steps w)
    (upholds : Meets (fun w x => (w.task x.2).Upholds w.hail) steps) :
    ∀ a ∈ w.hail.acceptedVertices, ∀ b ∈ w.hail.acceptedVertices, a.height = b.height →
      a.blockHash = b.blockHash := by
  have settled : w.AllSettled := by
    refine run.invariant _ upholds AllSettled ?_ ?_
    · intro a member
      simp [started, Hail.new] at member
    · exact fun u e v settled meets taken => settled.step meets taken
  intro a ha b hb same
  obtain ⟨cs, known, pref, _⟩ := settled a ha
  obtain ⟨cs', known', pref', _⟩ := settled b hb
  rw [same, known'] at known
  cases known
  rw [← pref, ← pref']

def firstBlock : HailBlock Digest := child genesis 1 0
def rivalBlock : HailBlock Digest := child genesis 1 1

/-- Eleven successful queries for a block and its children. -/
def firstVotes : List (HailEvent Digest) :=
  [joins 0] ++ poll 0 firstBlock ++
    (List.range 10).flatMap (fun i => poll 0 (child firstBlock 2 i)) ++ [.deliver 0]

/-- A block becomes final, and then a rival gets twelve votes. The counter that the
first block has left is past the upper threshold when the preference moves. -/
theorem two_final_blocks :
    ¬ ∀ (steps : List (HailActor Digest × HailOrder Digest × HailEvent Digest))
      (w : HailActor Digest), Run step sample steps w →
      ∀ a ∈ w.hail.acceptedVertices, ∀ b ∈ w.hail.acceptedVertices, a.height = b.height →
        a.blockHash = b.blockHash := by
  intro unique
  have found : (runSample (firstVotes ++ poll 0 rivalBlock ++ [.deliver 0] ++
      (List.range 11).flatMap (fun i => poll 0 (child rivalBlock 3 i)))).any (fun r =>
        decide (firstBlock.vertex ∈ r.2.hail.acceptedVertices ∧
          rivalBlock.vertex ∈ r.2.hail.acceptedVertices)) = true := by
    decide +kernel
  obtain ⟨steps, w, run, both⟩ := exec_any found
  obtain ⟨first, rival⟩ := of_decide_eq_true both
  have same := unique steps w run firstBlock.vertex first rivalBlock.vertex rival rfl
  exact absurd same (by decide +kernel)

/-- A rival that gets votes after a block has become final, but not as many. -/
theorem one_final_block_rival :
    ∃ (steps : List (HailActor Digest × HailOrder Digest × HailEvent Digest))
      (w : HailActor Digest), Run step sample steps w ∧
      firstBlock.vertex ∈ w.hail.acceptedVertices ∧ rivalBlock.vertex ∈ w.hail.dag.g ∧
      ∀ a ∈ w.hail.acceptedVertices, ∀ b ∈ w.hail.acceptedVertices, a.height = b.height →
        a.blockHash = b.blockHash := by
  have found : (runSample (firstVotes ++ poll 0 rivalBlock)).any (fun r =>
      decide ((firstBlock.vertex ∈ r.2.hail.acceptedVertices ∧
        rivalBlock.vertex ∈ r.2.hail.dag.g) ∧
          ∀ x ∈ r.1, (x.1.task x.2.2).Upholds x.1.hail)) = true := by
    decide +kernel
  obtain ⟨steps, w, run, both⟩ := exec_any found
  obtain ⟨⟨first, rival⟩, upholds⟩ := of_decide_eq_true both
  exact ⟨steps, w, run, first, rival, one_final_block _ steps w run upholds⟩

end HailActor
end Subzero
