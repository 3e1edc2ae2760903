import Subzero.Hail.Sample
import Subzero.Hail.Steps

/-! The tip of the chain and the blocks proposed on it. A successful query makes its
block the tip, whatever the order in which queries complete, and every new tip opens
a new slot for a proposal. -/
namespace Subzero.HailActor
variable {H : Type} [LinearOrder H] [BlockDigest H] [Sortition H]

/-- The vertex that a task makes the tip, if any. -/
def Task.tip (s : Hail H) : Task H → Option (Vertex H)
  | .join msg => some ⟨msg.height, msg.lastAcceptedHash⟩
  | .complete block acks => if s.passes acks then some block.vertex else none
  | _ => none

/-- The tip moves to a vertex, and the slot is open again. -/
structure Moves (v : Vertex H) (w w' : HailActor H) : Prop where
  height : w'.hail.height = v.height
  last : w'.hail.lastAcceptedHash = some v.blockHash
  tips : w'.tips = w.tips ++ [v]
  reopened : w'.hail.committee.blockProposed = false
  proposed : w'.proposed = w.proposed

/-- The tip stays. A block may be proposed on it if none was. -/
structure Stays (w w' : HailActor H) : Prop where
  height : w'.hail.height = w.hail.height
  last : w'.hail.lastAcceptedHash = w.hail.lastAcceptedHash
  tips : w'.tips = w.tips
  proposed : (w'.proposed = w.proposed ∧
      w'.hail.committee.blockProposed = w.hail.committee.blockProposed) ∨
    w.hail.committee.blockProposed = false ∧ w'.hail.committee.blockProposed = true ∧
      ∃ block : Block H, block.height = w.hail.height + 1 ∧ w'.proposed = w.proposed ++ [block]

theorem Does.tip {order : HailOrder H} {w w' : HailActor H} {t : Task H}
    (does : Does order w t w') :
    (∃ v, t.tip w.hail = some v ∧ Moves v w w') ∨ t.tip w.hail = none ∧ Stays w w' := by
  cases does with
  | @join msg s ms qs joined =>
    obtain ⟨⟨_, t⟩, inserted, rfl⟩ := Option.map_eq_some_iff.mp joined
    have left := Outcome.unwrap_eq_some.mp inserted
    refine .inl ⟨_, rfl, ?_⟩
    rcases Hail.insert_cases (congrArg Outcome.state? left) with
      ⟨rfl, _⟩ | ⟨_, committee, height, last⟩
    · exact ⟨rfl, rfl, rfl, rfl, rfl⟩
    · exact ⟨height, last, rfl, by simp only [committee]; rfl, rfl⟩
  | receive ms qs received =>
    obtain ⟨_, committee, height, last⟩ :=
      Hail.onReceiveBlock_cases (Hail.queryBlock_cases received).1
    exact .inr ⟨rfl, height, last, rfl, .inl ⟨rfl, by simp only [committee]⟩⟩
  | generate ms qs generated =>
    obtain ⟨_, _, left⟩ := Hail.generateBlock_cases generated
    obtain ⟨_, committee, height, last⟩ := Hail.onReceiveBlock_cases left
    exact .inr ⟨rfl, height, last, rfl, .inl ⟨rfl, by simp only [committee]⟩⟩
  | propose ms qs proposed =>
    rcases Hail.acceptedCells_cases proposed with ⟨rfl, rfl⟩ | ⟨vacant, rfl, b, rfl, above⟩
    · exact .inr ⟨rfl, rfl, rfl, rfl, .inl ⟨by simp, rfl⟩⟩
    · exact .inr ⟨rfl, rfl, rfl, rfl, .inr ⟨vacant, rfl, b, above, rfl⟩⟩
  | @pass block acks accepted s ms qs passes passed =>
    obtain ⟨_, height, last, reopened, _⟩ := Hail.passQuery_votes passed
    exact .inl ⟨block.vertex, by simp [Task.tip, passes], height, last, rfl, reopened, rfl⟩
  | fail ms qs fails =>
    exact .inr ⟨by simp [Task.tip, fails], rfl, rfl, rfl, .inl ⟨rfl, rfl⟩⟩
  | idle => exact .inr ⟨rfl, rfl, rfl, rfl, .inl ⟨rfl, rfl⟩⟩

/-- A new tip is no lower than any tip before it. -/
def Task.Ascends (w : HailActor H) (t : Task H) : Prop :=
  ∀ v ∈ t.tip w.hail, ∀ u ∈ w.tips, u.height ≤ v.height

instance (w : HailActor H) (t : Task H) : Decidable (t.Ascends w) :=
  inferInstanceAs (Decidable (∀ v ∈ t.tip w.hail, ∀ u ∈ w.tips, u.height ≤ v.height))

/-- The height is that of a highest tip, and the last accepted hash is its hash. -/
structure Topped (w : HailActor H) : Prop where
  bound : ∀ u ∈ w.tips, u.height ≤ w.hail.height
  last : (w.hail.height = 0 ∧ w.hail.lastAcceptedHash = none) ∨
    ∃ v ∈ w.tips, v.height = w.hail.height ∧ w.hail.lastAcceptedHash = some v.blockHash

theorem Topped.step {order : HailOrder H} {w w' : HailActor H} {e : HailEvent H}
    (topped : Topped w) (ascends : (w.task e).Ascends w) (taken : w.step (order, e) = some w') :
    Topped w' ∧ w.hail.height ≤ w'.hail.height := by
  rcases (step_does taken).tip with ⟨v, asked, moves⟩ | ⟨_, stays⟩
  · have above : w.hail.height ≤ v.height := by
      rcases topped.last with ⟨zero, _⟩ | ⟨u, member, height, _⟩
      · rw [zero]
        exact UInt64.zero_le
      · rw [← height]
        exact ascends v asked u member
    refine ⟨⟨fun u member => ?_, .inr ⟨v, ?_, moves.height.symm, moves.last⟩⟩, ?_⟩
    · rw [moves.height]
      rw [moves.tips, List.mem_append, List.mem_singleton] at member
      rcases member with member | rfl
      · exact ascends v asked u member
      · exact UInt64.le_refl _
    · rw [moves.tips]
      simp
    · rw [moves.height]
      exact above
  · refine ⟨⟨?_, ?_⟩, ?_⟩
    · rw [stays.tips, stays.height]
      exact topped.bound
    · rw [stays.tips, stays.height, stays.last]
      exact topped.last
    · rw [stays.height]
      exact UInt64.le_refl _

/-- If every tip is no lower than those before it, the height never decreases, and
the last accepted hash is that of a tip which no tip is above. -/
theorem tip_never_decreases (nodeId : Id)
    (steps : List (HailActor H × HailOrder H × HailEvent H)) (w : HailActor H)
    (run : Run step (.started nodeId) steps w)
    (ascends : Meets (fun w x => (w.task x.2).Ascends w) steps) :
    (∀ u ∈ states steps w, u.hail.height ≤ w.hail.height) ∧
      ∀ hash, w.hail.lastAcceptedHash = some hash →
        ⟨w.hail.height, hash⟩ ∈ w.tips ∧ ∀ u ∈ w.tips, u.height ≤ w.hail.height := by
  obtain ⟨topped, related⟩ := run.relates _ ascends Topped
    (fun u v => u.hail.height ≤ v.hail.height)
    ⟨fun u member => by simp [started] at member, .inl ⟨rfl, rfl⟩⟩
    (fun _ => UInt64.le_refl _) (fun _ _ _ => UInt64.le_trans)
    (fun u e v topped meets taken => topped.step meets taken)
  refine ⟨fun u member => (related u member).2, fun hash last => ⟨?_, topped.bound⟩⟩
  rcases topped.last with ⟨_, absent⟩ | ⟨v, member, height, last'⟩
  · rw [absent] at last
    cases last
  · rw [last'] at last
    cases last
    rw [← height]
    exact member

/-- A block and its child are received; the query of the child completes first. -/
def outOfOrder : List (HailEvent Digest) :=
  let first := child genesis 1 0
  let second := child first 2 0
  [joins 0, .queryBlock first, .queryBlock second, .deliver 1, answer true second, .deliver 1,
    .deliver 0, answer true first, .deliver 0]

theorem tip_decreases :
    ¬ ∀ (steps : List (HailActor Digest × HailOrder Digest × HailEvent Digest))
      (w : HailActor Digest), Run step sample steps w →
      ∀ u ∈ states steps w, u.hail.height ≤ w.hail.height := by
  intro monotone
  have found : (runSample outOfOrder).any (fun r =>
      decide (∃ u ∈ states r.1 r.2, u.hail.height = 2 ∧ r.2.hail.height = 1)) = true := by
    decide +kernel
  obtain ⟨steps, w, run, both⟩ := exec_any found
  obtain ⟨u, visited, two, one⟩ := of_decide_eq_true both
  have low := monotone steps w run u visited
  have one : w.hail.height = 1 := one
  rw [two, one] at low
  exact absurd low (by decide)

/-- The queries of a block and its child complete in the order of their heights. -/
theorem tip_never_decreases_in_order :
    ∃ (steps : List (HailActor Digest × HailOrder Digest × HailEvent Digest))
      (w : HailActor Digest), Run step sample steps w ∧ w.hail.height = 2 ∧
      (∀ u ∈ states steps w, u.hail.height ≤ w.hail.height) ∧
      ∀ hash, w.hail.lastAcceptedHash = some hash →
        ⟨w.hail.height, hash⟩ ∈ w.tips ∧ ∀ u ∈ w.tips, u.height ≤ w.hail.height := by
  have found : (runSample ([joins 0] ++ poll 0 (child genesis 1 0) ++
      poll 0 (child (child genesis 1 0) 2 0))).any (fun r =>
        decide (r.2.hail.height = 2 ∧ ∀ x ∈ r.1, (x.1.task x.2.2).Ascends x.1)) = true := by
    decide +kernel
  obtain ⟨steps, w, run, both⟩ := exec_any found
  obtain ⟨height, ascends⟩ := of_decide_eq_true both
  exact ⟨steps, w, run, height, tip_never_decreases _ steps w run ascends⟩

/-- A new tip is no lower than the one before, and higher if a block was proposed on
that one. -/
def Task.Advances (s : Hail H) (t : Task H) : Prop :=
  ∀ v ∈ t.tip s, s.height ≤ v.height ∧ (s.committee.blockProposed = true → s.height < v.height)

instance (s : Hail H) (t : Task H) : Decidable (t.Advances s) :=
  inferInstanceAs (Decidable (∀ v ∈ t.tip s,
    s.height ≤ v.height ∧ (s.committee.blockProposed = true → s.height < v.height)))

/-- The blocks proposed so far are at different heights, none of them above the next
one; and none at the next one while the slot is open. The height of a proposal is
one above a `u64`, so it is that one which is compared. -/
structure Spaced (w : HailActor H) : Prop where
  apart : (w.proposed.map Block.height).Nodup
  below : ∀ b ∈ w.proposed, b.height - 1 ≤ w.hail.height
  vacant : w.hail.committee.blockProposed = false →
    ∀ b ∈ w.proposed, b.height - 1 < w.hail.height

theorem Spaced.step {order : HailOrder H} {w w' : HailActor H} {e : HailEvent H}
    (spaced : Spaced w) (advances : (w.task e).Advances w.hail)
    (taken : w.step (order, e) = some w') : Spaced w' := by
  rcases (step_does taken).tip with ⟨v, asked, moves⟩ | ⟨_, stays⟩
  · -- a new tip opens the slot, so it has to leave all proposals below it
    obtain ⟨atLeast, more⟩ := advances v asked
    have less : ∀ b ∈ w.proposed, b.height - 1 < v.height := by
      intro b member
      cases slot : w.hail.committee.blockProposed with
      | false => exact UInt64.lt_of_lt_of_le (spaced.vacant slot b member) atLeast
      | true => exact UInt64.lt_of_le_of_lt (spaced.below b member) (more slot)
    refine ⟨?_, ?_, fun _ => ?_⟩
    · rw [moves.proposed]
      exact spaced.apart
    · rw [moves.proposed, moves.height]
      exact fun b member => UInt64.le_of_lt (less b member)
    · rw [moves.proposed, moves.height]
      exact less
  · rcases stays.proposed with ⟨same, slot⟩ | ⟨vacant, taken, block, height, grown⟩
    · refine ⟨?_, ?_, ?_⟩
      · rw [same]
        exact spaced.apart
      · rw [same, stays.height]
        exact spaced.below
      · rw [same, stays.height, slot]
        exact spaced.vacant
    · -- the slot was open, so nothing has been proposed at this height
      have own : block.height - 1 = w.hail.height := by
        rw [height]
        exact UInt64.add_sub_cancel _ _
      have others := spaced.vacant vacant
      refine ⟨?_, ?_, fun reopened => ?_⟩
      · rw [grown, List.map_append, List.nodup_append]
        refine ⟨spaced.apart, by simp, ?_⟩
        rintro _ listed _ new rfl
        obtain ⟨b, member, same⟩ := List.mem_map.mp listed
        have same : b.height = block.height := by simpa [same] using new
        have less := others b member
        rw [same, own] at less
        exact UInt64.lt_irrefl _ less
      · rw [grown, stays.height]
        intro b member
        rcases List.mem_append.mp member with member | member
        · exact spaced.below b member
        · obtain rfl := List.mem_singleton.mp member
          rw [own]
          exact UInt64.le_refl _
      · rw [taken] at reopened
        cases reopened

/-- If no new tip is below the one before, and none is level with one on which a
block was proposed, the proposals of the node are at different heights. -/
theorem one_proposal_per_height (nodeId : Id)
    (steps : List (HailActor H × HailOrder H × HailEvent H)) (w : HailActor H)
    (run : Run step (.started nodeId) steps w)
    (advances : Meets (fun w x => (w.task x.2).Advances w.hail) steps) :
    (w.proposed.map Block.height).Nodup := by
  have spaced : Spaced w := by
    refine run.invariant _ advances Spaced ?_ ?_
    · constructor <;> simp [started]
    · exact fun u e v spaced meets taken => spaced.step meets taken
  exact spaced.apart

/-- The committee message is repeated between two batches of accepted cells. -/
theorem two_proposals_per_height :
    ¬ ∀ (steps : List (HailActor Digest × HailOrder Digest × HailEvent Digest))
      (w : HailActor Digest), Run step sample steps w →
      ∀ b ∈ w.proposed, ∀ c ∈ w.proposed, b.height = c.height → b = c := by
  intro unique
  have found : (runSample [joins 0, .acceptedCells [mint 1], joins 0,
      .acceptedCells [mint 2]]).any (fun r => decide (∃ b ∈ r.2.proposed, ∃ c ∈ r.2.proposed,
        b.height = c.height ∧ b.cells = [mint 1] ∧ c.cells = [mint 2])) = true := by
    decide +kernel
  obtain ⟨steps, w, run, both⟩ := exec_any found
  obtain ⟨b, hb, c, hc, same, first, second⟩ := of_decide_eq_true both
  have equal := unique steps w run b hb c hc same
  rw [equal, second] at first
  exact absurd first (by decide +kernel)

/-- A block is proposed on genesis and another one on a block that was queried. -/
theorem one_proposal_per_height_chain :
    ∃ (steps : List (HailActor Digest × HailOrder Digest × HailEvent Digest))
      (w : HailActor Digest), Run step sample steps w ∧ w.proposed.length = 2 ∧
      (w.proposed.map Block.height).Nodup := by
  have found : (runSample ([joins 0, .acceptedCells []] ++ poll 1 (child genesis 1 0) ++
      [.acceptedCells []])).any (fun r =>
        decide (r.2.proposed.length = 2 ∧ ∀ x ∈ r.1, (x.1.task x.2.2).Advances x.1.hail)) =
          true := by
    decide +kernel
  obtain ⟨steps, w, run, both⟩ := exec_any found
  obtain ⟨length, advances⟩ := of_decide_eq_true both
  exact ⟨steps, w, run, length, one_proposal_per_height _ steps w run advances⟩

end Subzero.HailActor
