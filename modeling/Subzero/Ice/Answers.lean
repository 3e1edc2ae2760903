import Subzero.Ideal
import Subzero.Ice.Actor

/-! The answers to pings. The choice for a peer without a decision is set where there is no
entry to set it in, so a query leaves the reservoir as it is, and every query about such a
peer is answered with the choice that it brings along. -/
namespace Subzero.Ice
namespace Reservoir

theorem setChoice_unknown {r : Reservoir} {peerId : Id} (unknown : r.getDecision peerId = none)
    (choice : Choice) : r.setChoice peerId choice = r := by
  unfold getDecision at unknown
  rw [setChoice, modify, unknown]

end Reservoir

namespace Actor

/-- The choice that a query is answered with. -/
def answer (r : Reservoir) (selfId : Id) (query : Query) : Choice :=
  if query.peerId = selfId then .live
  else ((r.getDecision query.peerId).map Entry.choice).getD query.choice

theorem processQuery_eq (r : Reservoir) (selfId : Id) (query : Query) :
    processQuery r selfId query = (⟨query.peerId, answer r selfId query⟩, r) := by
  unfold processQuery answer
  split
  · rfl
  · split
    · rename_i known
      rw [known]
      rfl
    · rename_i unknown
      rw [Reservoir.setChoice_unknown unknown, unknown]
      rfl

theorem processQueries_eq (selfId : Id) (queries : List Query) (r : Reservoir) :
    processQueries selfId queries r =
      (queries.map fun query => ⟨query.peerId, answer r selfId query⟩, r) := by
  induction queries with
  | nil => rfl
  | cons query queries ih => simp only [processQueries, processQuery_eq, ih, List.map_cons]

/-- The outcomes for one peer carry one choice. -/
def Consistent (outcomes : List Outcome) : Prop :=
  ∀ o ∈ outcomes, ∀ o' ∈ outcomes, o.peerId = o'.peerId → o.choice = o'.choice

/-- The answers are consistent exactly if the queries agree on every other peer that has
no decision. -/
theorem answers_consistent_iff (r : Reservoir) (selfId : Id) (queries : List Query) :
    Consistent (processQueries selfId queries r).1 ↔
      ∀ q ∈ queries, ∀ q' ∈ queries, q.peerId = q'.peerId → q.peerId ≠ selfId →
        r.getDecision q.peerId = none → q.choice = q'.choice := by
  rw [processQueries_eq, Consistent, List.forall_mem_map]
  refine forall₂_congr fun q _ => ?_
  rw [List.forall_mem_map]
  refine forall₂_congr fun q' _ => forall_congr' fun same => ?_
  have about : q'.peerId = q.peerId := same.symm
  simp only [answer, about]
  by_cases self : q.peerId = selfId
  · simp [self]
  · cases known : r.getDecision q.peerId <;> simp [self]

section Sample

/-- Without a decision on the peer 2, it is live for one query and faulty for the next. -/
theorem answers_contradict : (processQueries ⟨1⟩ [⟨⟨2⟩, "peer", .live⟩, ⟨⟨2⟩, "peer", .faulty⟩]
    Reservoir.new).1 = [⟨⟨2⟩, .live⟩, ⟨⟨2⟩, .faulty⟩] ∧
    ¬ Consistent [⟨⟨2⟩, .live⟩, ⟨⟨2⟩, .faulty⟩] := by
  refine ⟨by decide, fun consistent => ?_⟩
  have same := consistent ⟨⟨2⟩, .live⟩ List.mem_cons_self ⟨⟨2⟩, .faulty⟩ (by decide) rfl
  contradiction

/-- With a decision, the same queries have one answer. -/
theorem answers_consistent_decided :
    Consistent (processQueries ⟨1⟩ [⟨⟨2⟩, "peer", .live⟩, ⟨⟨2⟩, "peer", .faulty⟩]
      (Reservoir.new.insert ⟨2⟩ "peer" .faulty 0)).1 := by
  refine (answers_consistent_iff _ _ _).mpr fun q asked _ _ _ _ undecided => ?_
  obtain rfl | rfl := List.mem_pair.mp asked
  all_goals exact absurd undecided (by decide)

end Sample
end Actor
end Subzero.Ice
