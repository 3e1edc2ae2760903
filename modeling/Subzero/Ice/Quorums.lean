import Subzero.Ice.Counter

/-! The history behind a conviction. The quorums completed for a peer and the changes
that other operations made to its entry are read off the steps of a run; conviction
counts the quorums at the end of that history that decided for the entry's choice. -/
namespace Subzero.Ice

/-- What can happen to a peer: a quorum on it is completed, or its entry is changed by
an operation other than `fill`. -/
inductive Mark where
  | quorum (q : Quorum)
  | changed

namespace Reservoir

/-- The marks that one operation leaves on a peer. -/
def marks (p : Id) (r : Reservoir) : Operation → List Mark
  | .fill responderId outcomes =>
    (outcomeStates responderId outcomes (r.resetFaultyDecision responderId)).flatMap fun x =>
      if x.2.peerId = p then (x.1.completed responderId x.2).toList.map .quorum else []
  | op =>
    if (r.perform op).decisions.lookup p = r.decisions.lookup p then [] else [.changed]

/-- The marks on a peer, the oldest first. -/
def history (p : Id) (steps : List (Reservoir × Operation)) : List Mark :=
  steps.flatMap fun x => x.1.marks p x.2

/-- The newest marks are as many quorums as the entry has conviction, all complete and
all decided for its choice. -/
def Supports (e : Entry) (past : List Mark) : Prop :=
  ∃ (older : List Mark) (quorums : List Quorum), past = older ++ quorums.map .quorum ∧
    quorums.length = e.conviction ∧ ∀ q ∈ quorums, q.len = K ∧ q.decide = some e.choice

/-- The quorums that are kept are not complete yet. -/
def Pending (r : Reservoir) : Prop := ∀ id q, r.quorums.lookup id = some q → q.len < K

theorem supports_zero {e : Entry} (past : List Mark) (fresh : e.conviction = 0) :
    Supports e past :=
  ⟨past, [], by simp, by simp [fresh], by simp⟩

theorem Supports.judged {e : Entry} {past : List Mark} {q : Quorum} (support : Supports e past)
    (full : q.len = K) : Supports (e.judged q.decide) (past ++ [.quorum q]) := by
  cases decided : q.decide with
  | none => exact supports_zero _ rfl
  | some d =>
    unfold Entry.judged
    simp only
    split
    · exact supports_zero _ rfl
    · rename_i kept
      obtain ⟨older, quorums, rfl, count, all⟩ := support
      refine ⟨older, quorums ++ [q], by simp, by simp [count], ?_⟩
      intro x hx
      rcases List.mem_append.mp hx with hx | hx
      · exact all x hx
      · obtain rfl := List.mem_singleton.mp hx
        exact ⟨full, by rw [decided, not_not.mp kept]⟩

theorem len_insert (q : Quorum) (responderId : Id) (choice : Choice) :
    (q.insert responderId choice).len ≤ q.len + 1 := by
  unfold Quorum.len Quorum.insert
  rw [HashMap.keys_insert]
  exact Finset.card_insert_le _ _

/-- The quorum that an outcome is recorded in has at most `K` votes. -/
theorem processQuorum_len {r : Reservoir} (pending : r.Pending) (responderId peerId : Id)
    (choice : Choice) : (r.processQuorum responderId peerId choice).1.len ≤ K := by
  unfold processQuorum
  split
  · rename_i q known
    have small := pending peerId q known
    split
    · exact Nat.le_of_lt small
    · exact Nat.le_trans (len_insert q responderId choice) small
  · exact Nat.le_trans (len_insert Quorum.new responderId choice) (by decide)

theorem completed_len {r : Reservoir} (pending : r.Pending) {responderId : Id}
    {outcome : Outcome} {q : Quorum} (done : r.completed responderId outcome = some q) :
    q.len = K := by
  simp only [completed] at done
  split at done
  · rename_i enough
    cases Option.some.inj done
    exact Nat.le_antisymm (processQuorum_len pending ..) enough
  · contradiction

theorem Pending.outcome {r : Reservoir} (pending : r.Pending) (responderId : Id)
    (outcome : Outcome) : (r.processOutcome responderId outcome).2.Pending := by
  intro id q known
  cases done : r.completed responderId outcome with
  | none =>
    rw [processOutcome_open done, lookup_processQuorum] at known
    split at known
    · cases Option.some.inj known
      simp only [completed] at done
      split at done
      · contradiction
      · rename_i short
        omega
    · exact pending id q known
  | some complete =>
    rw [processOutcome_complete done, processDecision_quorums, HashMap.lookup_erase_ite] at known
    split at known
    · contradiction
    · rename_i other
      rw [lookup_processQuorum, if_neg other] at known
      exact pending id q known

/-- Every entry of a peer is supported by the marks on the peer. -/
structure Backed (p : Id) (r : Reservoir) (past : List Mark) : Prop where
  pending : r.Pending
  support : ∀ e, r.decisions.lookup p = some e → Supports e past

theorem Backed.outcome {p : Id} {r : Reservoir} {past : List Mark} (backed : Backed p r past)
    (responderId : Id) (outcome : Outcome) :
    Backed p (r.processOutcome responderId outcome).2 (past ++
      if outcome.peerId = p then (r.completed responderId outcome).toList.map .quorum
      else []) := by
  refine ⟨backed.pending.outcome responderId outcome, ?_⟩
  intro e known
  cases done : r.completed responderId outcome with
  | none =>
    rw [processOutcome_open done, processQuorum_decisions] at known
    have support := backed.support e known
    split <;> simpa using support
  | some q =>
    rw [processOutcome_complete done, lookup_processDecision, processQuorum_decisions] at known
    by_cases same : outcome.peerId = p
    · subst same
      rw [if_pos rfl] at known ⊢
      obtain ⟨before, found, rfl⟩ := Option.map_eq_some_iff.mp known
      exact (backed.support before found).judged (completed_len backed.pending done)
    · rw [if_neg (Ne.symm same)] at known
      rw [if_neg same, List.append_nil]
      exact backed.support e known

theorem Backed.outcomes {p responderId : Id} {outcomes : List Outcome} {r : Reservoir}
    {past : List Mark} (backed : Backed p r past) :
    Backed p (processOutcomes responderId outcomes r).2 (past ++
      (outcomeStates responderId outcomes r).flatMap fun x =>
        if x.2.peerId = p then (x.1.completed responderId x.2).toList.map .quorum
        else []) := by
  induction outcomes generalizing r past with
  | nil => simpa [processOutcomes, outcomeStates] using backed
  | cons outcome outcomes ih =>
    have later := ih (backed.outcome responderId outcome)
    rw [List.append_assoc] at later
    exact later

theorem Backed.modify {p : Id} {r : Reservoir} {past : List Mark} (backed : Backed p r past)
    {id : Id} {f : Entry → Entry} (resets : ∀ e, (f e).conviction = 0 ∨ f e = e) :
    Backed p (r.modify id f) past := by
  constructor
  · intro k q known
    rw [modify_quorums] at known
    exact backed.pending k q known
  · intro e known
    rw [lookup_modify] at known
    split at known
    · rename_i same
      subst same
      obtain ⟨before, found, rfl⟩ := Option.map_eq_some_iff.mp known
      rcases resets before with fresh | kept
      · exact supports_zero _ fresh
      · rw [kept]
        exact backed.support before found
    · exact backed.support e known

/-- An operation that leaves the quorums alone, and gives an entry that it changes
conviction 0. -/
theorem Backed.changes {p : Id} {r r' : Reservoir} {past : List Mark} (backed : Backed p r past)
    (quorums : r'.quorums = r.quorums)
    (entry : r'.decisions.lookup p = r.decisions.lookup p ∨
      ∀ e, r'.decisions.lookup p = some e → e.conviction = 0) :
    Backed p r' (past ++
      if r'.decisions.lookup p = r.decisions.lookup p then [] else [.changed]) := by
  constructor
  · intro id q known
    rw [quorums] at known
    exact backed.pending id q known
  · intro e known
    by_cases same : r'.decisions.lookup p = r.decisions.lookup p
    · rw [if_pos same, List.append_nil]
      exact backed.support e (same ▸ known)
    · exact supports_zero _ (entry.resolve_left same e known)

theorem lookup_modify_resets (p : Id) (r : Reservoir) {id : Id} {f : Entry → Entry}
    (resets : ∀ e, (f e).conviction = 0 ∨ f e = e) :
    (r.modify id f).decisions.lookup p = r.decisions.lookup p ∨
      ∀ e, (r.modify id f).decisions.lookup p = some e → e.conviction = 0 := by
  rw [lookup_modify]
  by_cases same : p = id
  · subst same
    rw [if_pos rfl]
    cases known : r.decisions.lookup p with
    | none => exact .inl rfl
    | some e =>
      rcases resets e with fresh | kept
      · exact .inr (fun e' h => by cases Option.some.inj h; exact fresh)
      · exact .inl (by rw [Option.map_some, kept])
  · exact .inl (if_neg same)

theorem Backed.operation {p : Id} {r : Reservoir} {past : List Mark} (backed : Backed p r past)
    (op : Operation) : Backed p (r.perform op) (past ++ r.marks p op) := by
  have insertion : ∀ peerId ip choice,
      (r.insert peerId ip choice 0).decisions.lookup p = r.decisions.lookup p ∨
        ∀ e, (r.insert peerId ip choice 0).decisions.lookup p = some e → e.conviction = 0 := by
    intro peerId ip choice
    unfold insert
    by_cases same : p = peerId
    · subst same
      refine .inr fun e known => ?_
      rw [Finmap.lookup_insert] at known
      cases Option.some.inj known
      rfl
    · exact .inl (Finmap.lookup_insert_of_ne _ same)
  cases op with
  | insert peerId ip choice => exact backed.changes rfl (insertion peerId ip choice)
  | insertNew peerId ip choice =>
    apply backed.changes
    · simp only [perform, insertNew]
      split <;> rfl
    · simp only [perform, insertNew]
      split
      · exact .inl rfl
      · exact insertion peerId ip choice
  | setChoice peerId choice =>
    exact backed.changes (modify_quorums ..) (lookup_modify_resets p r fun e => .inl rfl)
  | updateChoice peerId choice =>
    refine backed.changes (modify_quorums ..) (lookup_modify_resets p r fun e => ?_)
    by_cases differs : e.choice ≠ choice
    · exact .inl (by rw [if_pos differs])
    · exact .inr (if_neg differs)
  | sample orders =>
    obtain ⟨queue, after⟩ := sample_queue r orders
    apply backed.changes
    · simp only [perform, after]
    · simp only [perform, after, true_or]
  | fill responderId outcomes =>
    apply Backed.outcomes
    apply backed.modify
    intro e
    cases kind : e.choice with
    | live => exact .inr rfl
    | faulty => exact .inl rfl

theorem Backed.run {steps : List (Reservoir × Operation)} {last : Reservoir}
    (run : Run step new steps last) (p : Id) : Backed p last (history p steps) := by
  induction run with
  | start =>
    constructor
    · intro id q known
      simp [new] at known
    · intro e known
      simp [new] at known
  | @next steps r r' op _ taken ih =>
    cases Option.some.inj taken
    have appended : history p (steps ++ [(r, op)]) = history p steps ++ r.marks p op := by
      simp [history]
    rw [appended]
    exact ih.operation op

/-- A complete quorum decides for a choice only if all its votes are for it. -/
theorem unanimous {q : Quorum} {c : Choice} (full : q.len = K) (decided : q.decide = some c)
    (responder : Id) (vote : Choice) (voted : q.choices.lookup responder = some vote) :
    vote = c := by
  have many : 1 < (q.votes c).card := by
    unfold Quorum.decide at decided
    rw [threshold] at decided
    split at decided
    · cases Option.some.inj decided
      assumption
    · split at decided
      · cases Option.some.inj decided
        assumption
      · contradiction
  have whole : q.votes c = q.choices.keys := by
    have two : q.choices.keys.card = 2 := full
    have all : q.choices.keys.card ≤ (q.votes c).card := by omega
    exact Finset.eq_of_subset_of_card_le (Finset.filter_subset _ _) all
  have member : responder ∈ q.votes c := by
    rw [whole, Finmap.mem_keys]
    exact Finmap.mem_of_lookup_eq_some voted
  have chosen := (Finset.mem_filter.mp member).2
  exact Option.some.inj (voted.symm.trans chosen)

/-- A live endpoint is backed by the last `BETA1` marks on its peer: they are quorums of
`K` responders that all voted for it to be live, with no change in between. -/
theorem live_endpoint_backed {steps : List (Reservoir × Operation)} {last : Reservoir}
    (run : Run step new steps last) {p : Id} {ip : SocketAddr}
    (live : last.getLiveEndpoint p = some ip) :
    ∃ (older : List Mark) (quorums : List Quorum), history p steps = older ++ quorums.map .quorum ∧
      quorums.length = BETA1 ∧ ∀ q ∈ quorums, q.choices.keys.card = K ∧
        ∀ responder vote, q.choices.lookup responder = some vote → vote = .live := by
  unfold getLiveEndpoint getEndpointHavingStrongChoice at live
  split at live
  · rename_i e known
    split at live
    · rename_i strong
      obtain ⟨older, quorums, past, count, all⟩ := (Backed.run run p).support e known
      -- the conviction may exceed `BETA1`: the quorums before the last ones count as older
      let spare := quorums.length - BETA1
      refine ⟨older ++ (quorums.take spare).map .quorum, quorums.drop spare, ?_, ?_, ?_⟩
      · rw [past, List.append_assoc, ← List.map_append, List.take_append_drop]
      · rw [List.length_drop]
        omega
      · intro q hq
        obtain ⟨full, decided⟩ := all q (List.mem_of_mem_drop hq)
        exact ⟨full, unanimous full (strong.1 ▸ decided)⟩
    · contradiction
  · contradiction

/-- A peer found faulty comes back by one quorum and is live after three more. -/
theorem live_endpoint_backed_after_flip : ∃ steps last, Run step new steps last ∧
    ∃ (older : List Mark) (quorums : List Quorum), older ≠ [] ∧
      history (peer 1) steps = older ++ quorums.map .quorum ∧ quorums.length = BETA1 ∧
      ∀ q ∈ quorums, q.choices.keys.card = K ∧
        ∀ responder vote, q.choices.lookup responder = some vote → vote = .live := by
  have found : (exec step new (.insert (peer 1) "a" .live :: (quorumOn (peer 1) .faulty ++
      (List.replicate 4 (quorumOn (peer 1) .live)).flatten))).any (fun run => decide (
        run.2.getLiveEndpoint (peer 1) = some "a" ∧
        BETA1 < (history (peer 1) run.1).length)) = true := by
    decide +kernel
  obtain ⟨steps, last, run, facts⟩ := exec_any found
  obtain ⟨live, long⟩ := of_decide_eq_true facts
  obtain ⟨older, quorums, past, count, all⟩ := live_endpoint_backed run live
  refine ⟨steps, last, run, older, quorums, ?_, past, count, all⟩
  rintro rfl
  rw [past, List.nil_append, List.length_map, count] at long
  exact absurd long (by decide)

end Reservoir
end Subzero.Ice
