import Subzero.Sleet.Sample
import Subzero.Sleet.Steps

/-! Answers to queries. The search of the ancestry finds nothing for a transaction
that is not in the DAG, and so everything it finds is preferred. -/
namespace Subzero
variable {H : Type} [DecidableEq H] [Blake3 H]
variable {order : HashOrder H} {s : Sleet H} {w w' : Actor H} {tx : Tx H}

/-- A yes is justified for an accepted transaction, and for one in the DAG that is
preferred with all its ancestry. -/
def Vote.Justified (v : Vote H) : Prop :=
  (v.sleet.knownTxs.status v.txHash = some .accepted ∨
    v.txHash ∈ v.sleet.dag.g ∧
      ∀ a, v.sleet.dag.Ancestor v.txHash a → v.sleet.conflictGraph.isPreferred a = .ok true) ∧
  v.sleet.knownTxs.status v.txHash ≠ some .rejected ∧
  v.sleet.knownTxs.status v.txHash ≠ some .removed

namespace Sleet

/-- A transaction that waits for its votes is in the DAG. -/
def Shown (s : Sleet H) (h : H) : Prop :=
  s.knownTxs.status h = some .pending ∨ s.knownTxs.status h = some .queried → h ∈ s.dag.g

/-- What the check of pending queries has to know of a transaction. -/
def Open (s : Sleet H) (h : H) : Prop := s.Shown h ∧ s.knownTxs.status h ≠ some .rejected

instance (s : Sleet H) (h : H) : Decidable (s.Shown h) := inferInstanceAs (Decidable (_ → _))

instance (s : Sleet H) (h : H) : Decidable (s.Open h) := inferInstanceAs (Decidable (_ ∧ _))

omit [Blake3 H] in
theorem allPreferred_true {cg : ConflictGraph H} {hashes : List H}
    (yes : allPreferred cg hashes = .ok true) : ∀ h ∈ hashes, cg.isPreferred h = .ok true := by
  induction hashes with
  | nil => simp
  | cons h hashes ih =>
    unfold allPreferred at yes
    split at yes
    · cases yes
    · cases yes
    · rename_i preferred
      exact List.forall_mem_cons.mpr ⟨preferred, ih yes⟩

omit [Blake3 H] in
theorem strongly_preferred (linked : s.dag.Linked) {h : H} (present : h ∈ s.dag.g)
    (yes : s.isStronglyPreferred h = .ok true) :
    ∀ a, s.dag.Ancestor h a → s.conflictGraph.isPreferred a = .ok true := fun a path =>
  allPreferred_true yes a (linked.mem_dfs.mpr ⟨present, path⟩)

omit [Blake3 H] in
/-- A known transaction that is not final waits for its votes. -/
theorem justified_of_preferred (linked : s.dag.Linked) {h : H} (shown : s.Shown h)
    (known : h ∈ s.knownTxs) (alive : s.knownTxs.status h ≠ some .removed)
    (open_ : s.knownTxs.status h ≠ some .rejected) (yes : s.isStronglyPreferred h = .ok true) :
    Vote.Justified ⟨h, true, s⟩ := by
  refine ⟨?_, open_, alive⟩
  obtain ⟨tx, found⟩ := Finmap.mem_iff.mp known
  have status : s.knownTxs.status h = some tx.status := by simp [TxDb.status, found]
  cases current : tx.status <;> rw [current] at status
  · have present := shown (Or.inl status)
    exact Or.inr ⟨present, strongly_preferred linked present yes⟩
  · have present := shown (Or.inr status)
    exact Or.inr ⟨present, strongly_preferred linked present yes⟩
  · exact Or.inl status
  · exact absurd status open_
  · exact absurd status alive

theorem onReceiveTx_ok {s s' : Sleet H} {new : Bool} (linked : s.dag.Linked)
    (received : s.onReceiveTx order tx = .ok new s') :
    tx.hash ∈ s'.knownTxs ∧ s'.knownTxs.status tx.hash ≠ some .removed ∧
      (s' = s ∨ s'.knownTxs.status tx.hash = some .pending ∧ tx.hash ∈ s'.dag.g) := by
  have receipt := onReceiveTx_receipt order s tx
  rw [received] at receipt
  cases receipt with
  | known found alive =>
    refine ⟨Finmap.mem_of_lookup_eq_some found, ?_, Or.inl rfl⟩
    simpa [TxDb.status, found] using alive
  | @stored cg d insertable _ vertex =>
    have present : tx.hash ∈ d.g := by
      obtain ⟨_, _, ⟨_, _, failed⟩ | ⟨_, eq⟩⟩ := DAG.insertVx_cases linked
        (hasParents_inside insertable.parents) (congrArg Outcome.state? vertex)
      · rw [vertex] at failed
        cases failed
      · exact eq ▸ Finmap.mem_insert.mpr (Or.inl rfl)
    have pending : TxDb.status (s.knownTxs.insertTx { tx with status := .pending }) tx.hash =
        some .pending := by
      simp [TxDb.status, TxDb.insertTx, Tx.hash]
    refine ⟨Finmap.mem_insert.mpr (Or.inl rfl), ?_, Or.inr ⟨pending, present⟩⟩
    rw [pending]
    decide

theorem onReceiveTx_open {s s' : Sleet H} (linked : s.dag.Linked)
    (left : (s.onReceiveTx order tx).state? = some s') {h : H} (open_ : s.Open h) : s'.Open h := by
  have receipt := onReceiveTx_receipt order s tx
  have grows : ∀ {d : DAG H}, Insertable s tx →
      (s.dag.insertVx tx.hash (s.removeAcceptedParents tx.parents)).state? = some d →
        ∀ v ∈ s.dag.g, v ∈ d.g := by
    intro d insertable vertex v hv
    obtain ⟨_, _, ⟨_, eq, _⟩ | ⟨_, eq⟩⟩ := DAG.insertVx_cases linked
      (hasParents_inside insertable.parents) vertex
    · exact eq ▸ hv
    · exact eq ▸ Finmap.mem_insert.mpr (Or.inr hv)
  cases received : s.onReceiveTx order tx with
  | panic => simp [received] at left
  | err e s₁ =>
    rw [received] at receipt left
    cases left
    cases receipt with
    | refused => exact open_
    | conflicts => exact open_
    | vertex insertable _ vertex =>
      exact ⟨fun waits => grows insertable (by rw [vertex]; rfl) h (open_.1 waits), open_.2⟩
  | ok new s₁ =>
    obtain ⟨_, _, same | ⟨pending, present⟩⟩ := onReceiveTx_ok linked received
    · rw [received] at left
      cases left
      exact same ▸ open_
    · rw [received] at receipt left
      cases left
      by_cases hh : h = tx.hash
      · subst hh
        exact ⟨fun _ => present, by rw [pending]; decide⟩
      · cases receipt with
        | known => exact open_
        | stored insertable _ vertex =>
          have status : TxDb.status (s.knownTxs.insertTx { tx with status := .pending }) h =
              s.knownTxs.status h := by
            simp [TxDb.status, TxDb.insertTx, Tx.hash, show h ≠ tx.cell.hash from hh]
          refine ⟨fun waits => ?_, status ▸ open_.2⟩
          exact grows insertable (by rw [vertex]; rfl) h (open_.1 (status ▸ waits))

theorem queryTx_justified {s s' : Sleet H} {new : Bool} (linked : s.dag.Linked)
    (shown : s.Shown tx.hash) (done : s.queryTx order tx = some (new, .now true, s')) :
    Vote.Justified ⟨tx.hash, true, s'⟩ := by
  unfold queryTx at done
  split at done
  · rename_i s' received
    obtain ⟨outcome, voted, eq⟩ := Option.map_eq_some_iff.mp done
    cases eq
    have admits := onReceiveTx_admits (congrArg Outcome.state? received)
    obtain ⟨known, alive, stored⟩ := onReceiveTx_ok linked received
    have shown' : s'.Shown tx.hash := by
      rcases stored with rfl | ⟨_, present⟩
      · exact shown
      · exact fun _ => present
    unfold voteOn at voted
    split at voted
    · rename_i accepted
      rw [accepted_iff] at accepted
      exact ⟨Or.inl accepted, by simp [accepted], by simp [accepted]⟩
    · split at voted
      · cases voted
      · rename_i open_
        have rejected : s'.knownTxs.status tx.hash ≠ some .rejected := fun rejected =>
          open_ ((TxDb.cannotBeAccepted_iff _ _).mpr (Or.inr rejected))
        cases preferred : s'.isStronglyPreferred tx.hash with
        | error e => simp [preferred, Except.toOption] at voted
        | ok yes =>
          obtain rfl : yes = true := by simpa [preferred, Except.toOption] using voted
          exact justified_of_preferred (admits.linked linked) shown' known alive rejected preferred
  · cases done
  · cases done
  · cases done

omit [DecidableEq H] in
theorem Checked.answer_votes {c : Checked H} {p : Pending H} {outcome : Bool} {v : Vote H}
    (member : v ∈ (c.answer p outcome).votes) :
    v ∈ c.votes ∨ p.closed = false ∧ v = ⟨p.tx.hash, outcome, c.sleet⟩ := by
  unfold Checked.answer at member
  split at member
  · exact Or.inl member
  · rename_i live
    rcases List.mem_append.mp member with old | new
    · exact Or.inl old
    · exact Or.inr ⟨by simpa using live, List.mem_singleton.mp new⟩

/-- A round answers one query and keeps what is known of the others. -/
theorem checkRound_justified {c c' : Checked H} {p : Pending H} (linked : c.sleet.dag.Linked)
    (open_ : p.closed = false → c.sleet.Open p.tx.hash) (done : checkRound order c p = some c') :
    (∀ v ∈ c'.votes, v ∈ c.votes ∨ (v.outcome = true → v.Justified)) ∧
      ∀ h, c.sleet.Open h → c'.sleet.Open h := by
  unfold checkRound at done
  split at done
  · split at done
    · rename_i new s₁ received
      obtain ⟨outcome, voted, rfl⟩ := Option.map_eq_some_iff.mp done
      have left := congrArg Outcome.state? received
      have keeps : ∀ h, c.sleet.Open h → s₁.Open h := fun h =>
        onReceiveTx_open linked left
      refine ⟨fun v member => ?_, fun h => by simpa using keeps h⟩
      rcases Checked.answer_votes member with old | ⟨live, rfl⟩
      · exact Or.inl old
      · refine Or.inr fun yes => ?_
        have now := keeps _ (open_ live)
        obtain ⟨known, alive, _⟩ := onReceiveTx_ok linked received
        cases preferred : s₁.isStronglyPreferred p.tx.hash with
        | error e => simp [preferred, Except.toOption] at voted
        | ok b =>
          obtain rfl : b = outcome := by simpa [preferred, Except.toOption] using voted
          obtain rfl : b = true := yes
          exact justified_of_preferred ((onReceiveTx_admits left).linked linked) now.1 known alive
            now.2 preferred
    · rename_i s₁ received
      cases done
      refine ⟨fun v member => ?_, fun h => ?_⟩
      · rcases Checked.answer_votes member with old | ⟨_, rfl⟩
        · exact Or.inl old
        · exact Or.inr fun yes => by cases yes
      · simpa using onReceiveTx_open linked (by rw [received]; rfl)
    · cases done
  · split at done <;> cases done <;> exact ⟨fun v => Or.inl, fun _ => id⟩

theorem checkPending_justified {c : Checked H} (linked : s.dag.Linked)
    (open_ : ∀ p ∈ s.pendingQueries, p.closed = false → s.Open p.tx.hash)
    (done : s.checkPending order = some c) : ∀ v ∈ c.votes, v.outcome = true → v.Justified := by
  obtain ⟨c₁, loop, rfl⟩ := Option.map_eq_some_iff.mp done
  refine (foldlM_invariant (fun c => c.sleet.dag.Linked ∧
    (∀ p ∈ s.pendingQueries, p.closed = false → c.sleet.Open p.tx.hash) ∧
      ∀ v ∈ c.votes, v.outcome = true → v.Justified) ⟨linked, open_, by simp⟩ ?_ loop).2.2
  rintro p listed c c' ⟨linked, open_, before⟩ round
  obtain ⟨votes, keeps⟩ :=
    checkRound_justified linked (open_ p (List.mem_reverse.mp listed)) round
  refine ⟨(onReceiveTx_admits (checkRound_receives round)).linked linked,
    fun q hq live => keeps _ (open_ q hq live), fun v member => ?_⟩
  rcases votes v member with old | new
  · exact before v old
  · exact new

end Sleet

namespace Actor

/-- The transaction of a query that an event brings. -/
def asked : Event H → Option H
  | .queryTx _ _ tx => some tx.hash
  | _ => none

/-- The pending queries that are checked at an event. -/
def checked (w : Actor H) (e : Event H) : List (Pending H) :=
  match w.message e with
  | some .checkPending => w.sleet.pendingQueries
  | _ => []

/-- A transaction that is asked for is in the DAG if it waits for its votes, and is
not rejected if its query was pending. -/
def Answerable (w : Actor H) (e : Event H) : Prop :=
  (∀ h ∈ asked e, w.sleet.Shown h) ∧
    ∀ p ∈ w.checked e, p.closed = false → w.sleet.Open p.tx.hash

instance (w : Actor H) (e : Event H) : Decidable (w.Answerable e) :=
  inferInstanceAs (Decidable (_ ∧ _))

/-- The answers that are sent by a handler of a message. -/
theorem handle_votes {m : Message H} (done : w.handle order m = some w') :
    w'.votes = w.votes ∨ ∃ c, m = .checkPending ∧ w.sleet.checkPending order = some c ∧
      w'.votes = w.votes ++ c.votes := by
  cases m with
  | checkPending =>
    obtain ⟨c, checked, rfl⟩ := Option.map_eq_some_iff.mp done
    exact Or.inr ⟨c, rfl, checked, rfl⟩
  | freshTx tx =>
    simp only [handle, onFreshTx] at done
    split at done <;> cases done
    exact Or.inl rfl
  | queryComplete tx acks =>
    obtain ⟨⟨new, s⟩, _, rfl⟩ := Option.map_eq_some_iff.mp done
    left
    dsimp only
    split <;> rfl
  | queryIncomplete tx acks =>
    obtain ⟨s, _, rfl⟩ := Option.map_eq_some_iff.mp done
    exact Or.inl rfl
  | newAccepted hashes =>
    obtain ⟨⟨cells, s⟩, _, rfl⟩ := Option.map_eq_some_iff.mp done
    exact Or.inl rfl
  | _ => cases done; exact Or.inl rfl

theorem onReply_votes {response : Option (ClientResponse H)} {r : ClientRequest H}
    (done : w.onReply order response r = some w') : w'.votes = w.votes := by
  unfold onReply at done
  split at done
  · unfold onBootstrapReply at done
    split at done
    · cases done; rfl
    · cases done
    · obtain ⟨⟨diff, s⟩, _, rfl⟩ := Option.map_eq_some_iff.mp done
      cases diff <;> rfl
  · unfold onQueryReply at done
    split at done
    · cases done; rfl
    · cases done
    · split at done <;> cases done <;> rfl
  · unfold onAncestorsReply at done
    split at done
    · obtain ⟨⟨fresh, s⟩, _, rfl⟩ := Option.map_eq_some_iff.mp done
      rfl
    · cases done; rfl
  · cases done

/-- The votes of a step are old ones, and yes only where this is justified. -/
def Warranted (w w' : Actor H) : Prop :=
  ∀ v ∈ w'.votes, v ∈ w.votes ∨ (v.outcome = true → v.Justified)

omit [Blake3 H] in
theorem Warranted.of_eq (same : w'.votes = w.votes) : Warranted w w' :=
  fun _ member => Or.inl (same ▸ member)

theorem onQueryTx_votes {id : Id} {ip : SocketAddr} (sound : Sound w)
    (shown : w.sleet.Shown tx.hash) (done : w.onQueryTx order id ip tx = some w') :
    Warranted w w' := by
  obtain ⟨⟨new, reply, s⟩, received, rfl⟩ := Option.map_eq_some_iff.mp done
  cases reply with
  | pending => cases new <;> exact .of_eq rfl
  | now outcome =>
    intro v member
    have voted : v ∈ w.votes ++ [⟨tx.hash, outcome, s⟩] := by cases new <;> exact member
    rcases List.mem_append.mp voted with old | voted
    · exact Or.inl old
    · obtain rfl := List.mem_singleton.mp voted
      refine Or.inr fun yes => ?_
      obtain rfl : outcome = true := yes
      exact Sleet.queryTx_justified sound.linked shown received

/-- A query that times out is answered with a no. -/
theorem onTimeout_votes {i : Nat} (done : w.onTimeout i = some w') : Warranted w w' := by
  simp only [onTimeout] at done
  split at done
  · cases done
  · split at done
    · cases done
    · cases done
      intro v member
      refine (List.mem_append.mp member).imp id fun new yes => ?_
      obtain rfl := List.mem_singleton.mp new
      cases yes

theorem step_votes {e : Event H} (sound : Sound w) (answerable : w.Answerable e)
    (done : w.step (order, e) = some w') : Warranted w w' := by
  cases e with
  | liveCommittee validators liveCells =>
    obtain ⟨s, _, rfl⟩ := Option.map_eq_some_iff.mp done
    exact .of_eq rfl
  | generateTx cell =>
    obtain ⟨⟨ack, w₁⟩, generated, rfl⟩ := Option.map_eq_some_iff.mp done
    obtain ⟨⟨new, tx, s⟩, _, eq⟩ := Option.map_eq_some_iff.mp generated
    cases new <;> cases eq <;> exact .of_eq rfl
  | queryTx id ip tx => exact onQueryTx_votes sound (answerable.1 tx.hash rfl) done
  | deliver i =>
    simp only [step] at done
    split at done
    · cases done
    · rename_i m delivered
      rcases handle_votes done with eq | ⟨c, rfl, checked, eq⟩
      · exact .of_eq eq
      · intro v member
        rw [eq] at member
        refine (List.mem_append.mp member).imp id fun new => ?_
        have listed : w.checked (.deliver i) = w.sleet.pendingQueries := by
          simp [Actor.checked, message, delivered]
        exact Sleet.checkPending_justified sound.linked (listed ▸ answerable.2) checked v new
  | reply i response =>
    simp only [step] at done
    split at done
    · cases done
    · have votes := onReply_votes done
      exact .of_eq votes
  | timeout i => exact onTimeout_votes done
  | fetch i response =>
    simp only [step, onFetch] at done
    split at done
    · cases done
    · split at done <;> cases done <;> exact .of_eq rfl

/-- In a run that meets the condition at every step, every yes is justified by the
state in which it was given. -/
theorem yes_votes_justified (order : HashOrder H) (id : Id) (ip : SocketAddr)
    (peers : List (Id × SocketAddr)) (steps : List (Actor H × HashOrder H × Event H))
    (w : Actor H) (run : Run step (started (.new order id ip peers)) steps w)
    (meets : Meets (fun w x => w.Answerable x.2) steps) :
    ∀ v ∈ w.votes, v.outcome = true → v.Justified := by
  refine (run.invariant _ meets
    (fun w => Sound w ∧ ∀ v ∈ w.votes, v.outcome = true → v.Justified)
    ⟨.started order id ip peers, by simp [started]⟩ ?_).2
  rintro u x v ⟨sound, before⟩ answerable taken
  refine ⟨(step_move taken).sound sound, fun vote member => ?_⟩
  rcases step_votes sound answerable taken vote member with old | new
  · exact before vote old
  · exact new

/-- A query of a double spend waits for a parent. Meanwhile the double spend is
received without that parent and is rejected. Then the parent arrives, and the
pending query is answered with a yes. -/
theorem yes_vote_rejected :
    ¬ ∀ (steps : List (Actor Digest × HashOrder Digest × Event Digest)) (w : Actor Digest),
      Run step sample steps w → ∀ v ∈ w.votes, v.outcome = true → v.Justified := by
  intro justified
  let t := transfer [] 0
  let children := (List.range 10).map fun i => transfer [t] (i + 1)
  let p := transfer [] 11
  let u : Tx Digest := .new [] (pay [mint 0] 8)
  let events := joins 12 :: poll 1 true (t :: children) ++
    [receive { u with parents := [p.hash] }, receive u, .deliver 12, receive p, .deliver 16]
  have found : (runSample events).any (fun r => decide (∃ v ∈ r.2.votes, v.outcome = true ∧
      v.sleet.knownTxs.status v.txHash = some .rejected)) = true := by
    decide +kernel
  obtain ⟨steps, w, run, both⟩ := exec_any found
  obtain ⟨v, member, yes, rejected⟩ := of_decide_eq_true both
  exact (justified steps w run v member yes).2.1 rejected

theorem yes_votes_justified_pending :
    ∃ (steps : List (Actor Digest × HashOrder Digest × Event Digest)) (w : Actor Digest),
      Run step sample steps w ∧ (w.votes.map Vote.outcome) = [true, true] ∧
        ∀ v ∈ w.votes, v.outcome = true → v.Justified := by
  let t := transfer [] 0
  let u := transfer [t] 1
  let events := [joins 2, receive u, receive t, .deliver 3]
  have found : (runSample events).any (fun r => decide (r.2.votes.map Vote.outcome = [true, true] ∧
      ∀ x ∈ r.1, x.1.Answerable x.2.2)) = true := by
    decide +kernel
  obtain ⟨steps, w, run, both⟩ := exec_any found
  obtain ⟨yes, meets⟩ := of_decide_eq_true both
  exact ⟨steps, w, run, yes, yes_votes_justified _ _ _ _ steps w run meets⟩

end Actor
end Subzero
