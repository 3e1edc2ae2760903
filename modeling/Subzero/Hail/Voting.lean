import Subzero.Graph.Mirror
import Subzero.Hail.Sample
import Subzero.Hail.Steps

/-! Answers to queries about blocks. A block whose insertion failed is voted on as if
it had been inserted; the search of its ancestry is empty, and so the answer is yes. -/
namespace Subzero
variable {H : Type} [LinearOrder H] [BlockDigest H] [Sortition H]
variable {order : HailOrder H} {block : HailBlock H} {s s' : Hail H}

/-- A yes is justified for a block of the DAG that is preferred with all its ancestry. -/
def BlockVote.Justified (v : BlockVote H) : Prop :=
  v.block.vertex ∈ v.hail.dag.g ∧ ∀ a, v.hail.dag.Ancestor v.block.vertex a →
    v.hail.conflictMap.isPreferred a.height a.blockHash = .ok true

namespace Hail

/-- The block is in the DAG, or its parent is, or it names itself; or it is a
genesis block. -/
def Grounded (s : Hail H) (block : HailBlock H) : Prop :=
  block.vertex ∈ s.dag.g ∨ (∃ p ∈ block.parent, p ∈ s.dag.g ∨ p = block.vertex) ∨
    block.parent = none ∧ block.vertex.height = 0

instance (s : Hail H) (block : HailBlock H) : Decidable (s.Grounded block) :=
  inferInstanceAs (Decidable (block.vertex ∈ s.dag.g ∨
    (∃ p ∈ block.parent, p ∈ s.dag.g ∨ p = block.vertex) ∨
      block.parent = none ∧ block.vertex.height = 0))

/-- No insertion has left anything behind, and a stored block is in the DAG. -/
structure Whole (s : Hail H) : Prop where
  mirrored : s.dag.Mirrored
  keys : ∀ v ∈ s.dag.inv, v ∈ s.dag.g
  stored : ∀ hash b, s.knownBlocks.lookup hash = some b → b.hash = hash ∧ b.vertex ∈ s.dag.g

omit [Sortition H] in
theorem insert_known (left : (s.insert order block).state? = some s') :
    s'.knownBlocks = s.knownBlocks := by
  unfold insert at left
  simp only at left
  split at left
  · cases left
    rfl
  · split at left
    · rw [Outcome.state?_lift, Option.map_eq_some_iff] at left
      obtain ⟨d, _, rfl⟩ := left
      rfl
    · split at left
      · rw [Outcome.state?_lift, Option.map_eq_some_iff] at left
        obtain ⟨d, _, rfl⟩ := left
        rfl
      · cases left
        rfl

omit [Sortition H] in
theorem insert_vertex {u : Unit} (done : s.insert order block = .ok u s') :
    block.vertex ∈ s'.dag.g := by
  unfold insert at done
  simp only at done
  split at done
  · rename_i present
    cases done
    exact present
  · split at done
    · obtain ⟨d, inserted, rfl⟩ := Outcome.lift_eq_ok.mp done
      exact DAG.insertVx_ok inserted
    · split at done
      · obtain ⟨d, inserted, rfl⟩ := Outcome.lift_eq_ok.mp done
        exact DAG.insertVx_ok inserted
      · cases done

omit [Sortition H] in
theorem onReceiveBlock_known (left : (s.onReceiveBlock order block).state? = some s') :
    s'.knownBlocks = s.knownBlocks ∨
      s'.knownBlocks = s.knownBlocks.insert block.hash block ∧ block.vertex ∈ s'.dag.g := by
  unfold onReceiveBlock at left
  split at left
  · cases left
    exact .inl rfl
  · cases inserted : s.insert order block with
    | ok u t =>
      have known := insert_known (congrArg Outcome.state? inserted)
      have present := insert_vertex inserted
      rw [inserted] at left
      cases left
      exact .inr ⟨by simp only [known], present⟩
    | err e t =>
      have known := insert_known (congrArg Outcome.state? inserted)
      rw [inserted] at left
      cases left
      exact .inl known
    | panic =>
      rw [inserted] at left
      cases left

omit [BlockDigest H] [Sortition H] in
theorem allPreferred_true {m : ConflictMap H} {vxs : List (Vertex H)}
    (yes : allPreferred m vxs = .ok true) :
    ∀ v ∈ vxs, m.isPreferred v.height v.blockHash = .ok true := by
  induction vxs with
  | nil => simp
  | cons v vxs ih =>
    unfold allPreferred at yes
    split at yes
    · cases yes
    · cases yes
    · rename_i preferred
      exact List.forall_mem_cons.mpr ⟨preferred, ih yes⟩

omit [Sortition H] in
/-- A block that is grounded is added without leftovers. -/
theorem Adds.taken (adds : s.Adds order block s') (whole : s.Whole) (grounded : s.Grounded block) :
    s'.dag.Mirrored ∧ (∀ v ∈ s'.dag.inv, v ∈ s'.dag.g) ∧ block.vertex ∈ s'.dag.g ∧
      ∀ v ∈ s.dag.g, v ∈ s'.dag.g := by
  have anchored : ∀ p ∈ block.parent, p ∈ s.dag.inv → p ∈ s.dag.g ∨ p = block.vertex :=
    fun p _ listed => .inl (whole.keys p listed)
  have mirrored := whole.mirrored.insertVx adds.fresh anchored adds.dag
  obtain ⟨keys, ⟨taken, _⟩ | refused⟩ := DAG.insertVx_option adds.fresh adds.dag
  · have mem : ∀ v, v = block.vertex ∨ v ∈ s.dag.g → v ∈ s'.dag.g := by
      intro v h
      rw [taken.g, Finmap.mem_insert]
      exact h
    exact ⟨mirrored, fun v listed => mem v (((keys v).mp listed).imp id (whole.keys v)),
      mem _ (.inl rfl), fun v h => mem v (.inr h)⟩
  · obtain ⟨p, named, unlisted, other⟩ := refused.unknown
    rcases grounded with present | ⟨q, named', place⟩ | ⟨absent, _⟩
    · exact absurd present adds.fresh
    · obtain rfl : p = q := Option.mem_unique named named'
      rcases place with present | own
      · exact absurd (whole.mirrored.entry p present) unlisted
      · exact absurd own other
    · rw [absent] at named
      cases named

end Hail

namespace HailActor

/-- The condition on a step: blocks from outside are grounded. -/
def Task.Grounded (s : Hail H) : Task H → Prop
  | .join msg => s.Grounded msg.lastAcceptedBlock
  | .receive block => s.Grounded block
  | _ => True

instance (s : Hail H) : (t : Task H) → Decidable (t.Grounded s)
  | .join msg => inferInstanceAs (Decidable (s.Grounded msg.lastAcceptedBlock))
  | .receive block => inferInstanceAs (Decidable (s.Grounded block))
  | .generate _ | .propose _ | .complete _ _ | .idle => isTrue trivial

omit [Sortition H] in
theorem Writes.grounded {w : HailActor H} {t : Task H} (writes : Writes order w t block)
    (grounded : t.Grounded w.hail) : w.hail.Grounded block := by
  cases writes with
  | join msg => exact grounded
  | receive block => exact grounded
  | generate selected => exact .inr (.inl ⟨_, rfl, .inl (Hail.selectParent_spec selected).1⟩)

theorem Does.known {w w' : HailActor H} {t : Task H} (does : Does order w t w') :
    w'.hail.knownBlocks = w.hail.knownBlocks ∨ ∃ block : HailBlock H,
      w'.hail.knownBlocks = w.hail.knownBlocks.insert block.hash block ∧
        block.vertex ∈ w'.hail.dag.g := by
  cases does with
  | @join msg s ms qs joined =>
    obtain ⟨⟨_, t⟩, inserted, rfl⟩ := Option.map_eq_some_iff.mp joined
    have left := congrArg Outcome.state? (Outcome.unwrap_eq_some.mp inserted)
    have known := Hail.insert_known left
    exact .inl known
  | receive ms qs received =>
    exact (Hail.onReceiveBlock_known (Hail.queryBlock_cases received).1).imp id fun h => ⟨_, h⟩
  | generate ms qs generated =>
    obtain ⟨_, _, left⟩ := Hail.generateBlock_cases generated
    exact (Hail.onReceiveBlock_known left).imp id fun h => ⟨_, h⟩
  | propose ms qs proposed =>
    rcases Hail.acceptedCells_cases proposed with ⟨_, rfl⟩ | ⟨_, rfl, _⟩ <;> exact .inl rfl
  | pass ms qs passes passed => exact .inl (Hail.passQuery_votes passed).2.2.2.2
  | fail => exact .inl rfl
  | idle => exact .inl rfl

theorem whole_step {w w' : HailActor H} {t : Task H} (whole : w.hail.Whole)
    (grounded : t.Grounded w.hail) (does : Does order w t w') : w'.hail.Whole := by
  have dag : w'.hail.dag.Mirrored ∧ (∀ v ∈ w'.hail.dag.inv, v ∈ w'.hail.dag.g) ∧
      ∀ v ∈ w.hail.dag.g, v ∈ w'.hail.dag.g := by
    rcases does.blocks with same | ⟨block, writes, adds⟩ | ⟨_, _, _, _, votes⟩
    · rw [same.dag]
      exact ⟨whole.mirrored, whole.keys, fun _ h => h⟩
    · obtain ⟨mirrored, keys, _, grows⟩ := adds.taken whole (writes.grounded grounded)
      exact ⟨mirrored, keys, grows⟩
    · obtain ⟨g, inv⟩ := DAG.setChit_edges (congrArg Outcome.state? votes.chit)
      rw [g, inv]
      exact ⟨whole.mirrored.of_edges g inv, whole.keys, fun _ h => h⟩
  refine ⟨dag.1, dag.2.1, fun hash b found => ?_⟩
  -- the DAG only grows, so a block that is stored stays in it
  have old : w.hail.knownBlocks.lookup hash = some b →
      b.hash = hash ∧ b.vertex ∈ w'.hail.dag.g :=
    fun h => (whole.stored hash b h).imp id (dag.2.2 _)
  rcases does.known with same | ⟨block, same, present⟩
  · exact old (same ▸ found)
  · rw [same] at found
    rcases HashMap.lookup_insert_some found with ⟨eq, rfl⟩ | ⟨_, stored⟩
    · exact ⟨eq.symm, present⟩
    · exact old stored

omit [Sortition H] in
theorem received_mem (injective : Function.Injective (Block.hash : Block H → H)) (whole : s.Whole)
    (grounded : s.Grounded block) (left : (s.onReceiveBlock order block).state? = some s') :
    block.vertex ∈ s'.dag.g := by
  by_cases stored : block.hash ∈ s.knownBlocks
  · obtain ⟨b, found⟩ := Finmap.mem_iff.mp stored
    obtain ⟨hash, present⟩ := whole.stored _ b found
    -- what is stored under the hash may name another parent, but it has the same vertex
    have same : b.block = block.block := injective hash
    have kept : s' = s := by simpa [Hail.onReceiveBlock, stored, eq_comm] using left
    rw [kept, HailBlock.vertex, ← same]
    exact present
  · have inner : ∃ t, (s.insert order block).state? = some t ∧ t.dag = s'.dag := by
      simp only [Hail.onReceiveBlock, stored, if_false] at left
      rcases Outcome.state?_bind left with failed | ⟨_, t, done, stored⟩
      · exact ⟨s', failed, rfl⟩
      · cases stored
        exact ⟨t, by rw [done]; rfl, rfl⟩
    obtain ⟨t, inserted, same⟩ := inner
    rw [← same]
    rcases Hail.insert_cases inserted with ⟨rfl, present | ⟨absent, high⟩⟩ | ⟨adds, _⟩
    · exact present
    · rcases grounded with present | ⟨p, named, _⟩ | ⟨_, zero⟩
      · exact present
      · rw [absent] at named
        cases named
      · exact absurd zero high
    · exact (adds.taken whole grounded).2.2.1

/-- In every run whose blocks from outside are grounded, every yes is justified. -/
theorem yes_vote_justified (injective : Function.Injective (Block.hash : Block H → H))
    (nodeId : Id) (steps : List (HailActor H × HailOrder H × HailEvent H)) (w : HailActor H)
    (run : Run step (.started nodeId) steps w)
    (grounded : Meets (fun w x => (w.task x.2).Grounded w.hail) steps) :
    ∀ v ∈ w.votes, v.outcome = true → v.Justified := by
  have both : w.hail.Whole ∧ ∀ v ∈ w.votes, v.outcome = true → v.Justified := by
    refine run.invariant _ grounded
      (fun w => w.hail.Whole ∧ ∀ v ∈ w.votes, v.outcome = true → v.Justified) ?_ ?_
    · refine ⟨⟨.new, fun v h => absurd h Finmap.notMem_empty, fun hash b found => ?_⟩,
        fun v h => by cases h⟩
      simp [started, Hail.new] at found
    · rintro u ⟨order, e⟩ v ⟨whole, votes⟩ meets taken
      have does := step_does taken
      have whole' := whole_step whole meets does
      refine ⟨whole', ?_⟩
      revert meets
      generalize u.task e = t at does
      intro meets
      cases does with
      | receive ms qs received =>
        intro vote member yes
        rcases List.mem_append.mp member with old | new
        · exact votes vote old yes
        · obtain rfl := List.mem_singleton.mp new
          obtain ⟨left, preferred⟩ := Hail.queryBlock_cases received
          have present := received_mem injective whole meets left
          refine ⟨present, fun a path => ?_⟩
          exact Hail.allPreferred_true (preferred yes) a
            (whole'.mirrored.toLinked.mem_dfs.mpr ⟨present, path⟩)
      | join | generate | propose | pass | fail | idle => exact votes
  exact both.2

/-- A block whose parent is unknown is refused, and voted for. -/
theorem yes_vote_unjustified :
    ¬ ∀ (steps : List (HailActor Digest × HailOrder Digest × HailEvent Digest))
      (w : HailActor Digest), Run step sample steps w →
      ∀ v ∈ w.votes, v.outcome = true → v.Justified := by
  intro justified
  have found : (runSample [joins 0, .queryBlock (child (child genesis 1 0) 2 0)]).any (fun r =>
      decide (∃ v ∈ r.2.votes, v.outcome = true ∧ v.block.vertex ∉ v.hail.dag.g)) = true := by
    decide +kernel
  obtain ⟨steps, w, run, both⟩ := exec_any found
  obtain ⟨v, member, yes, absent⟩ := of_decide_eq_true both
  exact absent (justified steps w run v member yes).1

/-- A block and its child are received in this order; both get a yes. -/
theorem yes_vote_justified_chain :
    ∃ (steps : List (HailActor Digest × HailOrder Digest × HailEvent Digest))
      (w : HailActor Digest), Run step sample steps w ∧
      w.votes.map BlockVote.outcome = [true, true] ∧
      ∀ v ∈ w.votes, v.outcome = true → v.Justified := by
  have found : (runSample [joins 0, .queryBlock (child genesis 1 0),
      .queryBlock (child (child genesis 1 0) 2 0)]).any (fun r =>
        decide (r.2.votes.map BlockVote.outcome = [true, true] ∧
          ∀ x ∈ r.1, (x.1.task x.2.2).Grounded x.1.hail)) = true := by
    decide +kernel
  obtain ⟨steps, w, run, both⟩ := exec_any found
  obtain ⟨answers, grounded⟩ := of_decide_eq_true both
  exact ⟨steps, w, run, answers,
    yes_vote_justified blockHash_injective _ steps w run grounded⟩

end HailActor
end Subzero
