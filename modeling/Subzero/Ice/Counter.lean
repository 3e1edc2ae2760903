import Subzero.Lib.Run
import Subzero.Ice.Reservoir

/-! The bootstrap counter of the reservoir against the peers that are confirmed live.
Every completed quorum that confirms a peer once more is counted again, and the
operations that lose a confirmation leave the counter alone. -/
namespace Subzero.Ice

/-- Live with conviction at least `BETA1`. -/
def Entry.Confirmed (e : Entry) : Prop := e.choice = .live ∧ BETA1 ≤ e.conviction

instance (e : Entry) : Decidable e.Confirmed :=
  inferInstanceAs (Decidable (e.choice = .live ∧ BETA1 ≤ e.conviction))

namespace Reservoir

/-- The peers that are confirmed live. -/
def confirmed (r : Reservoir) : Finset Id :=
  r.decisions.keys.filter fun id => ∃ e ∈ r.decisions.lookup id, e.Confirmed

def Counted (r : Reservoir) : Prop := r.nbootstrapped = r.confirmed.card

instance (r : Reservoir) : Decidable r.Counted :=
  inferInstanceAs (Decidable (r.nbootstrapped = r.confirmed.card))

/-- A quorum on a confirmed peer is not completed, and no peer is confirmed to be
faulty unless the counter is 0. -/
def Spares (r : Reservoir) (responderId : Id) (outcome : Outcome) : Prop :=
  ∀ q ∈ r.completed responderId outcome, outcome.peerId ∉ r.confirmed ∧
    (q.decide = some .faulty → ∀ e ∈ r.decisions.lookup outcome.peerId,
      e.choice = .faulty → BETA1 ≤ e.conviction + 1 → r.nbootstrapped = 0)

instance (r : Reservoir) (responderId : Id) (outcome : Outcome) :
    Decidable (r.Spares responderId outcome) :=
  inferInstanceAs (Decidable (∀ q ∈ r.completed responderId outcome,
    outcome.peerId ∉ r.confirmed ∧
      (q.decide = some .faulty → ∀ e ∈ r.decisions.lookup outcome.peerId,
        e.choice = .faulty → BETA1 ≤ e.conviction + 1 → r.nbootstrapped = 0)))

/-- The states in which the outcomes of one message are processed. -/
def outcomeStates (responderId : Id) : List Outcome → Reservoir → List (Reservoir × Outcome)
  | [], _ => []
  | outcome :: outcomes, r =>
    (r, outcome) :: outcomeStates responderId outcomes (r.processOutcome responderId outcome).2

/-- The operation does not replace, flip or confirm again what is confirmed live, and
it confirms no faulty peer while the counter is positive. -/
def Gentle (r : Reservoir) : Operation → Prop
  | .insert peerId _ _ => peerId ∉ r.confirmed
  | .setChoice peerId _ => peerId ∉ r.confirmed
  | .updateChoice peerId choice => peerId ∈ r.confirmed → choice = .live
  | .fill responderId outcomes =>
    ∀ x ∈ outcomeStates responderId outcomes (r.resetFaultyDecision responderId),
      x.1.Spares responderId x.2
  | .insertNew _ _ _ => True
  | .sample _ => True

instance (r : Reservoir) : (op : Operation) → Decidable (r.Gentle op)
  | .insert peerId _ _ => inferInstanceAs (Decidable (peerId ∉ r.confirmed))
  | .setChoice peerId _ => inferInstanceAs (Decidable (peerId ∉ r.confirmed))
  | .updateChoice peerId choice =>
    inferInstanceAs (Decidable (peerId ∈ r.confirmed → choice = .live))
  | .fill responderId outcomes =>
    inferInstanceAs (Decidable (∀ x ∈ outcomeStates responderId outcomes
      (r.resetFaultyDecision responderId), x.1.Spares responderId x.2))
  | .insertNew _ _ _ => .isTrue trivial
  | .sample _ => .isTrue trivial

theorem mem_confirmed {r : Reservoir} {id : Id} :
    id ∈ r.confirmed ↔ ∃ e, r.decisions.lookup id = some e ∧ e.Confirmed := by
  simp only [confirmed, Finset.mem_filter, Finmap.mem_keys, Option.mem_def]
  constructor
  · exact fun h => h.2
  · rintro ⟨e, known, strong⟩
    exact ⟨Finmap.mem_of_lookup_eq_some known, e, known, strong⟩

theorem confirmed_congr {r r' : Reservoir} (same : r'.decisions = r.decisions) :
    r'.confirmed = r.confirmed := by
  simp only [confirmed, same]

/-- One entry that was not confirmed is rewritten, and counted if it is confirmed now. -/
theorem Counted.rewrite {r r' : Reservoir} (counted : r.Counted) (id : Id)
    (others : ∀ k, k ≠ id → r'.decisions.lookup k = r.decisions.lookup k)
    (before : id ∉ r.confirmed)
    (after : r'.nbootstrapped = r.nbootstrapped + if id ∈ r'.confirmed then 1 else 0) :
    r'.Counted := by
  unfold Counted at counted ⊢
  rw [after, counted]
  by_cases now : id ∈ r'.confirmed
  · have grown : r'.confirmed = Insert.insert id r.confirmed := by
      ext k
      by_cases same : k = id
      · simp [same, now]
      · simp [mem_confirmed, others k same, same]
    rw [if_pos now, grown, Finset.card_insert_of_notMem before]
  · have same : r'.confirmed = r.confirmed := by
      ext k
      by_cases same : k = id
      · simp [same, now, before]
      · simp [mem_confirmed, others k same]
    rw [if_neg now, same, Nat.add_zero]

/-- An entry loses its conviction, and it was not confirmed. -/
theorem Counted.modify {r : Reservoir} {id : Id} {f : Entry → Entry} (counted : r.Counted)
    (weak : ∀ e, r.decisions.lookup id = some e → e.Confirmed ∨ (f e).Confirmed → f e = e) :
    (r.modify id f).Counted := by
  have same : (r.modify id f).confirmed = r.confirmed := by
    ext k
    rw [mem_confirmed, mem_confirmed, lookup_modify]
    by_cases here : k = id
    · subst here
      rw [if_pos rfl]
      cases known : r.decisions.lookup k with
      | none => simp
      | some e =>
        simp only [Option.map_some, Option.some.injEq, exists_eq_left']
        constructor
        · intro strong
          exact weak e known (.inr strong) ▸ strong
        · intro strong
          rw [weak e known (.inl strong)]
          exact strong
    · rw [if_neg here]
  unfold Counted at counted ⊢
  rw [same, modify_nbootstrapped, counted]

/-- Unless a faulty peer takes from it, the counter grows with every confirmation. -/
theorem counted_eq {decision : Option Choice} {e : Entry} {n : Nat}
    (spared : decision = some .faulty → e.choice = .faulty → BETA1 ≤ e.conviction + 1 → n = 0) :
    counted decision (some e) n = n + if (e.judged decision).Confirmed then 1 else 0 := by
  cases decision with
  | none => simp [counted, Entry.judged, Entry.Confirmed, BETA1]
  | some d =>
    simp only [counted, confirm, Entry.judged]
    by_cases flips : d ≠ e.choice
    · simp [if_pos flips, Entry.Confirmed, BETA1]
    · have chosen : d = e.choice := not_not.mp flips
      simp only [if_neg flips, Entry.Confirmed]
      cases kind : e.choice with
      | live =>
        by_cases enough : BETA1 ≤ e.conviction + 1 <;> simp [enough]
      | faulty =>
        have idle : BETA1 ≤ e.conviction + 1 → n = 0 := spared (by rw [chosen, kind]) kind
        by_cases enough : BETA1 ≤ e.conviction + 1
        · simp [idle enough]
        · simp [enough]

theorem Counted.outcome {r : Reservoir} {responderId : Id} {outcome : Outcome}
    (counted : r.Counted) (spares : r.Spares responderId outcome) :
    (r.processOutcome responderId outcome).2.Counted := by
  cases done : r.completed responderId outcome with
  | none =>
    rw [processOutcome_open done]
    unfold Counted at counted ⊢
    rw [processQuorum_nbootstrapped, counted, confirmed_congr (processQuorum_decisions ..)]
  | some q =>
    obtain ⟨before, spared⟩ := spares q done
    have lookups := fun k => lookup_processDecision
      (r.processQuorum responderId outcome.peerId outcome.choice).2 outcome.peerId q k
    have counter := processDecision_nbootstrapped
      (r.processQuorum responderId outcome.peerId outcome.choice).2 outcome.peerId q
    rw [← processOutcome_complete done] at counter
    simp only [← processOutcome_complete done, processQuorum_decisions] at lookups
    rw [processQuorum_decisions, processQuorum_nbootstrapped] at counter
    apply counted.rewrite outcome.peerId
    · intro k other
      rw [lookups, if_neg other]
    · exact before
    · rw [counter]
      cases known : r.decisions.lookup outcome.peerId with
      | none =>
        have absent : outcome.peerId ∉ (r.processOutcome responderId outcome).2.confirmed := by
          rw [mem_confirmed, lookups, if_pos rfl, known]
          simp
        rw [if_neg absent]
        cases q.decide <;> rfl
      | some e =>
        have now : outcome.peerId ∈ (r.processOutcome responderId outcome).2.confirmed ↔
            (e.judged q.decide).Confirmed := by
          rw [mem_confirmed, lookups, if_pos rfl, known]
          simp
        rw [counted_eq (fun h => spared h e known)]
        simp only [now]

theorem Counted.outcomes {responderId : Id} {outcomes : List Outcome} {r : Reservoir}
    (counted : r.Counted)
    (spares : ∀ x ∈ outcomeStates responderId outcomes r, x.1.Spares responderId x.2) :
    (processOutcomes responderId outcomes r).2.Counted := by
  induction outcomes generalizing r with
  | nil => exact counted
  | cons outcome outcomes ih =>
    have here := counted.outcome (spares (r, outcome) List.mem_cons_self)
    exact ih here (fun x hx => spares x (List.mem_cons_of_mem _ hx))

/-- A new entry has no conviction, so it is not confirmed. -/
theorem Counted.insertion {r : Reservoir} (counted : r.Counted) {peerId : Id} (ip : SocketAddr)
    (choice : Choice) (fresh : peerId ∉ r.confirmed) : (r.insert peerId ip choice 0).Counted := by
  apply counted.rewrite peerId
  · intro k other
    exact Finmap.lookup_insert_of_ne _ other
  · exact fresh
  · have weak : peerId ∉ (r.insert peerId ip choice 0).confirmed := by
      rw [mem_confirmed]
      rintro ⟨e, known, strong⟩
      simp only [insert, Finmap.lookup_insert, Option.some.injEq] at known
      subst known
      exact absurd strong.2 (by simp [BETA1])
    rw [if_neg weak]
    rfl

theorem Counted.operation {r : Reservoir} {op : Operation} (counted : r.Counted)
    (gentle : r.Gentle op) : (r.perform op).Counted := by
  cases op with
  | insert peerId ip choice => exact counted.insertion ip choice gentle
  | insertNew peerId ip choice =>
    simp only [perform, insertNew]
    split
    · exact counted
    · rename_i vacant
      apply counted.insertion
      rw [mem_confirmed, vacant]
      simp
  | setChoice peerId choice =>
    apply counted.modify
    rintro e known (strong | weak)
    · exact absurd (mem_confirmed.mpr ⟨e, known, strong⟩) gentle
    · exact absurd weak.2 (by simp [BETA1])
  | updateChoice peerId choice =>
    apply counted.modify
    intro e known strong
    by_cases differs : e.choice ≠ choice
    · rw [if_pos differs] at strong ⊢
      rcases strong with strong | weak
      · have live := gentle (mem_confirmed.mpr ⟨e, known, strong⟩)
        exact absurd (strong.1.trans live.symm) differs
      · exact absurd weak.2 (by simp [BETA1])
    · rw [if_neg differs]
  | sample orders =>
    obtain ⟨queue, after⟩ := sample_queue r orders
    simp only [perform, after]
    exact counted
  | fill responderId outcomes =>
    refine Counted.outcomes (counted.modify ?_) gentle
    intro e _ strong
    cases kind : e.choice with
    | live => rfl
    | faulty => simp [kind, Entry.Confirmed, BETA1] at strong

/-- Every operation of the handlers is possible. -/
def step (r : Reservoir) (op : Operation) : Option Reservoir := some (r.perform op)

/-- The operation is a `fill` that reports the reservoir to be bootstrapped. -/
def reports (r : Reservoir) : Operation → Bool
  | .fill responderId outcomes => (r.fill responderId outcomes).1.1
  | _ => false

theorem reports_enough {r : Reservoir} {op : Operation} (reported : r.reports op = true) :
    K ≤ (r.perform op).nbootstrapped := by
  cases op with
  | fill responderId outcomes => exact of_decide_eq_true reported
  | _ => contradiction

/-- As long as every operation is gentle, the counter is the number of peers that are
confirmed live, and a reservoir reported as bootstrapped has at least `K` of them. -/
theorem nbootstrapped_counts {steps : List (Reservoir × Operation)} {last : Reservoir}
    (run : Run step new steps last) (gentle : Meets Gentle steps) :
    (∀ r ∈ states steps last, r.nbootstrapped = r.confirmed.card) ∧
    ∀ x ∈ steps, x.1.reports x.2 = true → K ≤ (x.1.perform x.2).confirmed.card := by
  have all := run.relates Gentle gentle Counted (fun _ _ => True) (by decide)
    (fun _ => trivial) (fun _ _ _ _ _ => trivial) (by
      intro r op r' counted gentle taken
      cases Option.some.inj taken
      exact ⟨counted.operation gentle, trivial⟩)
  constructor
  · exact fun r hr => (all.2 r hr).1
  · intro x taken reported
    have before : x.1 ∈ states steps last :=
      List.mem_append_left _ (List.mem_map.mpr ⟨x, taken, rfl⟩)
    have after : (x.1.perform x.2).Counted := (all.2 x.1 before).1.operation (gentle x taken)
    exact after ▸ reports_enough reported

section Sample

def peer (n : Nat) : Id := ⟨BitVec.ofNat 256 n⟩

/-- Two responders vote for the same choice on a peer. -/
def quorumOn (peerId : Id) (choice : Choice) : List Operation :=
  [.fill (peer 8) [⟨peerId, choice⟩], .fill (peer 9) [⟨peerId, choice⟩]]

/-- One peer is confirmed twice, and `fill` reports a bootstrapped reservoir. -/
theorem nbootstrapped_counts_one_peer_twice : ∃ steps last, Run step new steps last ∧
    last.confirmed = {peer 1} ∧ last.nbootstrapped = 2 ∧
    ∃ x ∈ steps, x.1.reports x.2 = true ∧ (x.1.perform x.2).confirmed.card < K := by
  have found : (exec step new (.insert (peer 1) "a" .live ::
      (List.replicate 4 (quorumOn (peer 1) .live)).flatten)).any (fun run => decide (
        run.2.confirmed = {peer 1} ∧ run.2.nbootstrapped = 2 ∧
        ∃ x ∈ run.1, x.1.reports x.2 = true ∧ (x.1.perform x.2).confirmed.card < K)) = true := by
    decide +kernel
  obtain ⟨steps, last, run, facts⟩ := exec_any found
  exact ⟨steps, last, run, of_decide_eq_true facts⟩

/-- Two peers are confirmed once each, after one of them had been found faulty. -/
theorem nbootstrapped_counts_two_peers : ∃ steps last, Run step new steps last ∧
    last.confirmed = {peer 1, peer 2} ∧ last.nbootstrapped = last.confirmed.card := by
  have found : (exec step new ([.insert (peer 1) "a" .live, .insertNew (peer 2) "b" .live] ++
      quorumOn (peer 2) .faulty ++ [.updateChoice (peer 1) .faulty] ++ quorumOn (peer 1) .live ++
      quorumOn (peer 2) .live ++ (List.replicate 3 (quorumOn (peer 1) .live)).flatten ++
      (List.replicate 3 (quorumOn (peer 2) .live)).flatten)).any (fun run => decide (
        run.2.confirmed = {peer 1, peer 2} ∧ ∀ x ∈ run.1, x.1.Gentle x.2)) = true := by
    decide +kernel
  obtain ⟨steps, last, run, facts⟩ := exec_any found
  obtain ⟨confirmed, gentle⟩ := of_decide_eq_true facts
  have counts := (nbootstrapped_counts run gentle).1 last
  exact ⟨steps, last, run, confirmed, counts (by simp [states])⟩

end Sample
end Reservoir
end Subzero.Ice
