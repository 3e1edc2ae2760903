import Mathlib.Data.List.Perm.Basic
import Subzero.Lib.Run
import Subzero.Sleet.Actor
import Subzero.Sleet.Sweep

/-! What one step of the actor can do, said once. Most steps only receive
transactions; the others complete a query, handle accepted transactions, or store
a transaction that was fetched. -/
namespace Subzero.Actor
variable {H : Type} [DecidableEq H] [Blake3 H]
variable {order : HashOrder H} {w w' : Actor H} {i : Nat} {s s' : Sleet H}

/-- The hashes in `NewAccepted` messages that are not handled yet. -/
def posted (ms : List (Message H)) : List H :=
  ms.flatMap fun
    | .newAccepted hashes => hashes
    | _ => []

/-- The message that an event delivers. -/
def message (w : Actor H) : Event H → Option (Message H)
  | .deliver i => w.mailbox[i]?
  | _ => none

/-- The transaction that a fetch task stores at an event. -/
def fetched (w : Actor H) : Event H → Option (Tx H)
  | .fetch i (some (.oneshot (some (.fetchedTx (some tx))))) =>
    match w.fetches[i]? with
    | some ⟨_, _, some (_, _ :: _)⟩ => some tx
    | _ => none
  | _ => none

/-- The transaction whose query gets its votes at an event. -/
def passing (w : Actor H) (e : Event H) : Option H :=
  match w.message e with
  | some (.queryComplete tx acks) => if w.sleet.Succeeds acks then some tx.hash else none
  | _ => none

/-- The transactions that an event brings, each with the state in which it is
received. -/
def receipts (order : HashOrder H) (w : Actor H) : Event H → List (Sleet H × Tx H)
  | .generateTx cell =>
    match w.sleet.selectParents order NPARENTS with
    | .ok parents => [(w.sleet, .new parents cell)]
    | .error _ => []
  | .queryTx _ _ tx => [(w.sleet, tx)]
  | .deliver i =>
    match w.mailbox[i]? with
    | some .checkPending => Sleet.receipts order (w.sleet.pendingQueries.reverse.map Pending.tx)
        { w.sleet with pendingQueries := [] }
    | _ => []
  | .reply i (some (.oneshot (some (.txAncestors ancestors)))) =>
    match w.requests[i]? with
    | some (.oneshot _ _ (.getTxAncestors _)) => Sleet.receipts order ancestors w.sleet
    | _ => []
  | _ => []

/-- The vertices that a bootstrap adds to the DAG. -/
def frontier (w : Actor H) : Event H → Finset H
  | .reply i (some (.fanout frontiers)) =>
    match w.requests[i]?, Sleet.joinFrontiers frontiers w.sleet.acceptedFrontier with
    | some (.fanout _ .getAcceptedFrontier), some joined => joined \ w.sleet.oldFrontier
    | _, _ => ∅
  | _ => ∅

inductive Move (order : HashOrder H) (w : Actor H) (e : Event H) (w' : Actor H) : Prop where
  | receives : w.passing e = none →
      w.sleet.Takes (w.frontier e) (w.receipts order e) w'.sleet → w.live ⊆ w'.live →
      w'.hail = w.hail → w'.accepted = w.accepted →
      (posted w'.mailbox).Perm (posted w.mailbox) → Move order w e w'
  | complete {tx : Tx H} {acks : List (Response H)} {new : List H} :
      w.message e = some (.queryComplete tx acks) →
      w.sleet.queryComplete tx acks = some (new, w'.sleet) → w'.live = w.live →
      w'.hail = w.hail → w'.accepted = w.accepted ++ new →
      (posted w'.mailbox).Perm (posted w.mailbox ++ new) → Move order w e w'
  | incomplete {tx : Tx H} {acks : List (Response H)} :
      w.message e = some (.queryIncomplete tx acks) →
      w.sleet.queryIncomplete tx = some w'.sleet → w'.live = w.live → w'.hail = w.hail →
      w'.accepted = w.accepted → (posted w'.mailbox).Perm (posted w.mailbox) → Move order w e w'
  | newAccepted {hashes : List H} {cells : List (Cell H)} :
      w.message e = some (.newAccepted hashes) →
      w.sleet.newAccepted order hashes = some (cells, w'.sleet) → w'.live = w.live →
      w'.hail = w.hail ++ [cells] → w'.accepted = w.accepted →
      (hashes ++ posted w'.mailbox).Perm (posted w.mailbox) → Move order w e w'
  | fetches {tx : Tx H} : w.fetched e = some tx →
      w'.sleet = { w.sleet with knownTxs := w.sleet.knownTxs.insertTx tx } → w'.live = w.live →
      w'.hail = w.hail → w'.accepted = w.accepted → posted w'.mailbox = posted w.mailbox →
      Move order w e w'

section
omit [DecidableEq H] [Blake3 H]

@[simp] theorem posted_append (ms ms' : List (Message H)) :
    posted (ms ++ ms') = posted ms ++ posted ms' := List.flatMap_append

@[simp] theorem posted_freshTxs (txs : List (Tx H)) : posted (txs.map .freshTx) = [] := by
  simp [posted]

theorem posted_eraseIdx {ms : List (Message H)} {m : Message H} (h : ms[i]? = some m) :
    (posted [m] ++ posted (ms.eraseIdx i)).Perm (posted ms) := by
  obtain ⟨inside, rfl⟩ := List.getElem?_eq_some_iff.mp h
  have perm := List.getElem_cons_eraseIdx_perm inside
  have flat := List.Perm.flatMap_right (fun m : Message H => posted [m]) perm
  simpa [posted] using flat

end

omit [Blake3 H] in
/-- The frontier goes into the DAG without edges. -/
theorem bootstrap_aside {frontiers : List (Response H)} {diff : Option (Finset H)}
    (done : s.bootstrap order frontiers = some (diff, s')) :
    ∃ joined, Sleet.joinFrontiers frontiers s.acceptedFrontier = some joined ∧
      Sleet.Aside (joined \ s.oldFrontier) s s' := by
  have loop : ∀ (added : Finset H) (d d' : DAG H), (Outcome.forEach (fun tx (d : DAG H) =>
      (d.insertVx tx []).bind fun _ d => d.setChit tx 1) (order.hashes.list added) d).state? =
        some d' → Sleet.Bares added d d' := by
    intro added
    refine Outcome.forEach_rel (Sleet.Bares added) (fun _ => .refl) (fun _ _ _ => .trans) _ _ ?_
    intro tx listed d d' round
    have member := (order.hashes.mem _ _).mp listed
    rcases Outcome.state?_bind round with failed | ⟨_, d₁, inserted, chit⟩
    · exact .single ⟨tx, member, .inl failed⟩
    · have first : Sleet.Bares added d d₁ :=
        .single ⟨tx, member, .inl (congrArg Outcome.state? inserted)⟩
      exact first.tail ⟨tx, member, .inr chit⟩
  unfold Sleet.bootstrap at done
  split at done
  · cases done
  · rename_i joined eq
    refine ⟨joined, eq, ?_⟩
    simp only at done
    split at done
    · cases done
      exact .of_eq rfl rfl rfl
    · split at done
      · rename_i inserted
        cases done
        exact ⟨rfl, Or.inl rfl, loop _ _ _ (congrArg Outcome.state? inserted)⟩
      · rename_i inserted
        cases done
        exact ⟨rfl, Or.inl rfl, loop _ _ _ (congrArg Outcome.state? inserted)⟩
      · cases done

theorem liveCommittee_aside {added : Finset H} {validators : HashMap Id (SocketAddr × Weight)}
    {liveCells : HashMap H (Cell H)} (done : s.liveCommittee order validators liveCells = some s') :
    Sleet.Aside added s s' := by
  obtain ⟨live, _, rfl⟩ := Option.map_eq_some_iff.mp done
  exact ⟨rfl, Or.inr ⟨order, _, rfl⟩, .refl⟩

theorem handle_move {m : Message H} (delivered : w.mailbox[i]? = some m)
    (done : { w with mailbox := w.mailbox.eraseIdx i }.handle order m = some w') :
    Move order w (.deliver i) w' := by
  have rest := posted_eraseIdx delivered
  have quiet : m ≠ .checkPending →
      w.sleet.Takes (w.frontier (.deliver i)) (w.receipts order (.deliver i)) w.sleet := by
    intro other
    have none_received : w.receipts order (.deliver i) = [] := by
      cases m <;> simp_all [receipts]
    exact none_received ▸ .done _
  cases m with
  | bootstrap =>
    cases done
    exact .receives (by simp [passing, message, delivered]) (quiet nofun) subset_rfl rfl rfl rest
  | fetchWithAncestry txs =>
    cases done
    exact .receives (by simp [passing, message, delivered]) (quiet nofun) subset_rfl rfl rfl rest
  | askForAncestors hash id ip =>
    cases done
    exact .receives (by simp [passing, message, delivered]) (quiet nofun) subset_rfl rfl rfl rest
  | freshTx tx =>
    simp only [handle, onFreshTx] at done
    split at done
    · cases done
    · cases done
      exact .receives (by simp [passing, message, delivered]) (quiet nofun) subset_rfl rfl rfl rest
  | checkPending =>
    obtain ⟨c, checked, rfl⟩ := Option.map_eq_some_iff.mp done
    have others : (posted (w.mailbox.eraseIdx i)).Perm (posted w.mailbox) := rest
    refine .receives (by simp [passing, message, delivered]) ?_ subset_rfl rfl rfl
      (by simpa [notify] using others)
    simp only [receipts, delivered]
    exact Sleet.checkPending_takes checked
  | queryIncomplete tx acks =>
    obtain ⟨s, completed, rfl⟩ := Option.map_eq_some_iff.mp done
    exact .incomplete delivered completed rfl rfl rfl rest
  | queryComplete tx acks =>
    obtain ⟨⟨new, s⟩, completed, rfl⟩ := Option.map_eq_some_iff.mp done
    have others : (posted (w.mailbox.eraseIdx i)).Perm (posted w.mailbox) := rest
    by_cases none_new : new = []
    · subst none_new
      exact .complete delivered completed rfl rfl rfl (by simpa using others)
    · simp only [none_new, if_false]
      refine .complete delivered completed rfl rfl rfl ?_
      simp only [notify, posted_append]
      exact (others.append_right _).trans (by simp [posted])
  | newAccepted hashes =>
    obtain ⟨⟨cells, s⟩, handled, rfl⟩ := Option.map_eq_some_iff.mp done
    exact .newAccepted delivered handled rfl rfl rfl (by simpa [posted] using rest)

theorem onReply_move {response : Option (ClientResponse H)} {r : ClientRequest H}
    (asked : w.requests[i]? = some r)
    (done : { w with requests := w.requests.eraseIdx i }.onReply order response r = some w') :
    w.sleet.Takes (w.frontier (.reply i response)) (w.receipts order (.reply i response))
        w'.sleet ∧
      w'.live = w.live ∧ w'.hail = w.hail ∧ w'.accepted = w.accepted ∧
      posted w'.mailbox = posted w.mailbox := by
  have quiet : w.receipts order (.reply i response) = [] →
      w.sleet.Takes (w.frontier (.reply i response)) (w.receipts order (.reply i response))
        w.sleet := fun none_received => none_received ▸ .done _
  unfold onReply at done
  split at done
  · unfold onBootstrapReply at done
    split at done
    · cases done; exact ⟨quiet rfl, rfl, rfl, rfl, rfl⟩
    · cases done
    · rename_i frontiers
      obtain ⟨⟨diff, s⟩, handled, rfl⟩ := Option.map_eq_some_iff.mp done
      obtain ⟨joined, eq, aside⟩ := bootstrap_aside handled
      have added : w.frontier (.reply i (some (.fanout frontiers))) =
          joined \ w.sleet.oldFrontier := by
        simp only [frontier, asked, eq]
      have takes : w.sleet.Takes (w.frontier (.reply i (some (.fanout frontiers)))) [] s :=
        added ▸ .of_aside aside
      cases diff with
      | none => exact ⟨takes, rfl, rfl, rfl, rfl⟩
      | some diff => exact ⟨takes, rfl, rfl, rfl, by simp [notify, posted]⟩
  · unfold onQueryReply at done
    split at done
    · cases done; exact ⟨quiet rfl, rfl, rfl, rfl, rfl⟩
    · cases done
    · split at done <;> cases done <;>
        exact ⟨quiet rfl, rfl, rfl, rfl, by simp [notify, posted]⟩
  · unfold onAncestorsReply at done
    split at done
    · obtain ⟨⟨fresh, s⟩, received, rfl⟩ := Option.map_eq_some_iff.mp done
      refine ⟨?_, rfl, rfl, rfl, by simp [notify, posted]⟩
      simp only [receipts, asked]
      exact Sleet.receiveAncestors_takes received
    · rename_i other
      cases done
      refine ⟨quiet ?_, rfl, rfl, rfl, rfl⟩
      unfold receipts
      split <;> simp_all
  · cases done

theorem onFetch_move {response : Option (ClientResponse H)} (order : HashOrder H)
    (done : w.onFetch i response = some w') : Move order w (.fetch i response) w' := by
  unfold onFetch at done
  split at done
  · cases done
  · rename_i f task
    cases round : fetchRound w.sleet.knownTxs f response with
    | none =>
      simp only [round] at done
      cases done
      refine .receives rfl (.done _) subset_rfl rfl rfl ?_
      simp [notify, posted]
    | some r =>
      obtain ⟨db, f'⟩ := r
      simp only [round] at done
      cases done
      have same : db = w.sleet.knownTxs → Move order w (.fetch i response)
          { w with sleet := { w.sleet with knownTxs := db }, fetches := w.fetches.set i f' } := by
        rintro rfl
        exact .receives rfl (.done _) subset_rfl rfl rfl (List.Perm.refl _)
      unfold fetchRound at round
      split at round
      · split at round
        · cases round
        · split at round <;> cases round <;> exact same rfl
      · cases round; exact same rfl
      · rename_i hash peer peers asking
        split at round
        · rename_i tx
          cases round
          refine Move.fetches ?_ rfl rfl rfl rfl rfl
          obtain ⟨ps, q, asked⟩ := f
          simp only at asking
          subst asking
          simp [fetched, task]
        · cases round; exact same rfl

theorem step_move {e : Event H} (done : w.step (order, e) = some w') : Move order w e w' := by
  cases e with
  | liveCommittee validators liveCells =>
    obtain ⟨s, received, rfl⟩ := Option.map_eq_some_iff.mp done
    exact .receives rfl (.of_aside (liveCommittee_aside received)) Finset.subset_union_left rfl rfl
      (List.Perm.refl _)
  | generateTx cell =>
    obtain ⟨⟨ack, w₁⟩, generated, rfl⟩ := Option.map_eq_some_iff.mp done
    obtain ⟨⟨new, tx, s⟩, received, eq⟩ := Option.map_eq_some_iff.mp generated
    obtain ⟨parents, selected, takes⟩ := Sleet.generateTx_takes received
    have brought : w.receipts order (.generateTx cell) = [(w.sleet, .new parents cell)] := by
      simp only [receipts, selected]
    cases new <;> cases eq <;>
      exact .receives rfl (brought ▸ takes) subset_rfl rfl rfl (by simp [notify, posted])
  | queryTx id ip tx =>
    obtain ⟨⟨new, reply, s⟩, received, rfl⟩ := Option.map_eq_some_iff.mp done
    cases new <;> cases reply <;>
      exact .receives rfl (Sleet.queryTx_takes received) subset_rfl rfl rfl
        (by simp [notify, vote, posted])
  | deliver i =>
    simp only [step] at done
    split at done
    · cases done
    · rename_i m delivered
      exact handle_move delivered done
  | reply i response =>
    simp only [step] at done
    split at done
    · cases done
    · rename_i r asked
      obtain ⟨takes, live, hail, accepted, mailbox⟩ := onReply_move asked done
      exact .receives rfl takes (live ▸ subset_rfl) hail accepted (mailbox ▸ List.Perm.refl _)
  | timeout i =>
    simp only [step, onTimeout] at done
    split at done
    · cases done
    · split at done
      · cases done
      · cases done
        exact .receives rfl (.of_aside (.of_eq rfl rfl rfl)) subset_rfl rfl rfl
          (List.Perm.refl _)
  | fetch i response => exact onFetch_move order done

/-- The DAG is linked and transactions are stored under their hashes. -/
structure Sound (w : Actor H) : Prop where
  linked : w.sleet.dag.Linked
  keyed : w.sleet.Keyed

theorem Sound.started (order : HashOrder H) (id : Id) (ip : SocketAddr)
    (peers : List (Id × SocketAddr)) : Sound (started (.new order id ip peers) : Actor H) :=
  ⟨.new, fun h tx found => by simp [Actor.started, Sleet.new] at found⟩

theorem completed_keyed {root : H} {new : List H} (done : s.Completed root new s')
    (keyed : s.Keyed) : s'.Keyed := by
  have marked : ∀ {h : H} {st : TxStatus} {tx : Tx H},
      (s.knownTxs.lookup h).map (Sleet.mark st) = some tx → tx.hash = h := by
    intro h st tx found
    obtain ⟨old, known, rfl⟩ := Option.map_eq_some_iff.mp found
    exact keyed h old known
  intro h tx found
  rw [done.txs] at found
  split at found
  · exact marked found
  · split at found
    · exact marked found
    · exact keyed h tx found

theorem Move.sound {e : Event H} (move : Move order w e w') (sound : Sound w) : Sound w' := by
  cases move with
  | receives _ takes =>
    exact ⟨takes.admits.linked sound.linked, takes.admits.keyed sound.keyed⟩
  | complete _ completed =>
    obtain ⟨done, _⟩ := Sleet.queryComplete_completed sound.linked completed
    exact ⟨sound.linked.of_edges done.g done.inv, completed_keyed done sound.keyed⟩
  | incomplete _ completed =>
    have done := Sleet.queryIncomplete_completed completed
    exact ⟨sound.linked.of_edges done.g done.inv, completed_keyed done sound.keyed⟩
  | newAccepted _ handled =>
    obtain ⟨s₁, _, pruned, sweep, _⟩ := Sleet.newAccepted_sweep order sound.keyed handled
    obtain ⟨txs, _, linked⟩ := Sleet.prune_some order pruned
    refine ⟨linked (sweep.linked sound.linked), fun h tx found => ?_⟩
    exact sweep.keyed sound.keyed h tx (txs ▸ found)
  | @fetches tx _ eq =>
    refine ⟨by rw [eq]; exact sound.linked, fun h stored found => ?_⟩
    rw [eq] at found
    rcases HashMap.lookup_insert_some found with ⟨same, rfl⟩ | ⟨_, old⟩
    · exact same.symm
    · exact sound.keyed h stored old

theorem Sound.run {id : Id} {ip : SocketAddr} {peers : List (Id × SocketAddr)}
    {steps : List (Actor H × HashOrder H × Event H)}
    (run : Run step (Actor.started (.new order id ip peers)) steps w) : Sound w :=
  run.invariant (fun _ _ => True) (fun _ _ => trivial) Sound (.started order id ip peers)
    fun _ _ _ sound _ taken => (step_move taken).sound sound

theorem takes_consistent (injective : Function.Injective (Cell.hash : Cell H → H))
    {added : Finset H} {rs : List (Sleet H × Tx H)} (takes : s.Takes added rs s')
    (ok : s.conflictGraph.Consistent) : s'.conflictGraph.Consistent := by
  induction takes with
  | done => exact ok
  | aside step _ ih =>
    rcases step.graph with same | ⟨order, ids, grown⟩
    · exact ih (same ▸ ok)
    · exact ih (grown ▸ ConflictGraph.append_consistent order ids ok)
  | receive left _ ih =>
    refine ih ?_
    rcases Sleet.onReceiveTx_graph left with rfl | ⟨_, inserted⟩
    · exact ok
    · exact ConflictGraph.callAny_consistent injective ok inserted

theorem consistent_run (injective : Function.Injective (Cell.hash : Cell H → H)) {id : Id}
    {ip : SocketAddr} {peers : List (Id × SocketAddr)}
    {steps : List (Actor H × HashOrder H × Event H)}
    (run : Run step (Actor.started (.new order id ip peers)) steps w) :
    w.sleet.conflictGraph.Consistent := by
  refine (run.invariant (fun _ _ => True) (fun _ _ => trivial)
    (fun w => Sound w ∧ w.sleet.conflictGraph.Consistent)
    ⟨.started order id ip peers, ConflictGraph.new_consistent order ∅⟩ ?_).2
  rintro u ⟨o, e⟩ v ⟨sound, ok⟩ _ taken
  have move := step_move taken
  refine ⟨move.sound sound, ?_⟩
  cases move with
  | receives _ takes => exact takes_consistent injective takes ok
  | complete _ completed =>
    exact (Sleet.queryComplete_completed sound.linked completed).1.retuned.consistent ok
  | incomplete _ completed =>
    exact (Sleet.queryIncomplete_completed completed).retuned.consistent ok
  | newAccepted _ handled =>
    obtain ⟨s₁, _, pruned, sweep, _⟩ := Sleet.newAccepted_sweep _ sound.keyed handled
    rw [(Sleet.prune_some _ pruned).2.1]
    exact sweep.calls.consistent ok
  | fetches _ eq => rw [eq]; exact ok

end Subzero.Actor
