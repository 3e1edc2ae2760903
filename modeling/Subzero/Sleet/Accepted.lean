import Subzero.Sleet.Steps

/-! Which transactions are accepted after a step: those that were and are not
overwritten, those that a successful query makes final, and those that are fetched. -/
namespace Subzero.Actor
variable {H : Type} [DecidableEq H] [Blake3 H]
variable {h root : H} {st : TxStatus} {tx : Tx H}

/-- The stored status of a transaction. -/
def status (w : Actor H) (h : H) : Option TxStatus := w.sleet.knownTxs.status h

/-- The transaction whose query is completed at an event. -/
def queried (w : Actor H) (e : Event H) : Option H :=
  match w.message e with
  | some (.queryComplete tx _) => some tx.hash
  | some (.queryIncomplete tx _) => some tx.hash
  | _ => none

/-- The transactions of the `NewAccepted` message that is handled at an event. -/
def accepting (w : Actor H) (e : Event H) : Option (List H) :=
  match w.message e with
  | some (.newAccepted hashes) => some hashes
  | _ => none

/-- The status of a transaction is written at an event, not counting acceptance:
its query completes, or it is a conflict or progeny of a conflict of what was
accepted, or it is fetched. -/
def Overwrites (w : Actor H) (e : Event H) (h : H) : Prop :=
  h ∈ w.queried e ∨ (∃ hashes ∈ w.accepting e, w.sleet.Swept hashes h) ∨
    ∃ tx ∈ w.fetched e, tx.hash = h

omit [DecidableEq H] [Blake3 H] in
theorem accepting_some {w : Actor H} {e : Event H} {hashes : List H} :
    w.accepting e = some hashes ↔ w.message e = some (.newAccepted hashes) := by
  unfold accepting
  split
  · rename_i delivered
    simp [delivered]
  · rename_i other
    exact ⟨nofun, fun delivered => absurd delivered (other hashes)⟩

section
omit [Blake3 H]

theorem status_of_lookup {w w' : Actor H}
    (same : w'.sleet.knownTxs.lookup h = w.sleet.knownTxs.lookup h) : w'.status h = w.status h := by
  unfold status TxDb.status
  rw [same]

theorem status_of_mark {w w' : Actor H}
    (marked : w'.sleet.knownTxs.lookup h = (w.sleet.knownTxs.lookup h).map (Sleet.mark st)) :
    w'.status h = (w.status h).map fun _ => st := by
  unfold status TxDb.status
  rw [marked]
  cases w.sleet.knownTxs.lookup h <;> rfl

theorem status_eq_some {w : Actor H} :
    w.status h = some st ↔ ∃ tx, w.sleet.knownTxs.lookup h = some tx ∧ tx.status = st :=
  Option.map_eq_some_iff

end

variable {order : HashOrder H} {w w' : Actor H} {e : Event H}

theorem overwrites_passing (passing : root ∈ w.passing e) (overwritten : w.Overwrites e h) :
    h = root := by
  unfold Actor.passing at passing
  split at passing
  · rename_i tx acks delivered
    have nothing : w.accepting e = none := by simp [accepting, delivered]
    have same : w.queried e = some root := by
      split at passing
      · rw [← Option.mem_def.mp passing, queried, delivered]
      · cases passing
    rcases overwritten with queried | ⟨hashes, told, _⟩ | ⟨tx', stored, _⟩
    · exact Option.mem_unique queried same
    · rw [nothing] at told
      cases told
    · cases e <;> simp [message, fetched] at delivered stored
  · cases passing

/-- Where an accepted transaction comes from. -/
theorem Move.accepted_cases (move : Move order w e w') (sound : Sound w)
    (found : w'.sleet.knownTxs.lookup h = some tx) (accepted : tx.status = .accepted) :
    w.sleet.knownTxs.lookup h = some tx ∨
      (∃ root ∈ w.passing e, h ≠ root ∧ w.sleet.Ripe root h ∧ w.status h ≠ some .accepted ∧
        ∃ old, w.sleet.knownTxs.lookup h = some old ∧ tx = Sleet.mark .accepted old) ∨
      w.fetched e = some tx ∧ tx.hash = h := by
  cases move with
  | receives _ takes =>
    rcases takes.admits.adds h tx found with old | ⟨pending, _⟩
    · exact Or.inl old
    · rw [pending] at accepted
      cases accepted
  | @complete tx' acks new delivered handled =>
    obtain ⟨done, _, exactly⟩ := Sleet.queryComplete_completed sound.linked handled
    obtain ⟨ne, old, fresh⟩ := done.accepted found accepted
    by_cases member : h ∈ new
    · obtain ⟨succeeds, ripe, undecided⟩ := (exactly h).mp member
      refine Or.inr (Or.inl ⟨tx'.hash, ?_, ne, ripe, undecided, fresh member⟩)
      simp [passing, delivered, succeeds]
    · exact Or.inl (old member)
  | incomplete _ handled =>
    obtain ⟨_, old, _⟩ := (Sleet.queryIncomplete_completed handled).accepted found accepted
    exact Or.inl (old (by simp))
  | newAccepted _ handled =>
    obtain ⟨s₁, _, pruned, sweep, _⟩ := Sleet.newAccepted_sweep order sound.keyed handled
    rw [(Sleet.prune_some order pruned).1] at found
    rcases sweep.txs h with same | ⟨_, marked⟩ | ⟨_, marked⟩
    · exact Or.inl (same ▸ found)
    all_goals
      rw [marked] at found
      obtain ⟨old, _, rfl⟩ := Option.map_eq_some_iff.mp found
      cases accepted
  | @fetches tx' stored eq =>
    rw [eq] at found
    rcases HashMap.lookup_insert_some found with ⟨same, rfl⟩ | ⟨_, old⟩
    · exact Or.inr (Or.inr ⟨stored, same.symm⟩)
    · exact Or.inl old

theorem Move.accepted_kept (move : Move order w e w') (sound : Sound w)
    (found : w.sleet.knownTxs.lookup h = some tx) (accepted : tx.status = .accepted)
    (kept : ¬ w.Overwrites e h) : w'.sleet.knownTxs.lookup h = some tx := by
  have current : w.status h = some .accepted := status_eq_some.mpr ⟨tx, found, accepted⟩
  cases move with
  | receives _ takes => exact takes.admits.keeps h tx found (by simp [accepted])
  | @complete tx' acks new delivered handled =>
    obtain ⟨done, _, exactly⟩ := Sleet.queryComplete_completed sound.linked handled
    have ne : h ≠ tx'.hash := by
      rintro rfl
      exact kept (Or.inl (by simp [queried, delivered]))
    have old : h ∉ new := fun member => ((exactly h).mp member).2.2 current
    rw [done.txs, if_neg ne, if_neg old, found]
  | @incomplete tx' acks delivered handled =>
    have done := Sleet.queryIncomplete_completed handled
    have ne : h ≠ tx'.hash := by
      rintro rfl
      exact kept (Or.inl (by simp [queried, delivered]))
    rw [done.txs, if_neg ne, if_neg List.not_mem_nil, found]
  | @newAccepted hashes _ delivered handled =>
    obtain ⟨s₁, _, pruned, sweep, _⟩ := Sleet.newAccepted_sweep order sound.keyed handled
    have told := accepting_some.mpr delivered
    rw [(Sleet.prune_some order pruned).1]
    rcases sweep.txs h with same | ⟨rejected, _⟩ | ⟨removed, _⟩
    · rw [same, found]
    · exact absurd (Or.inr (Or.inl ⟨hashes, told, .inl rejected⟩)) kept
    · exact absurd (Or.inr (Or.inl ⟨hashes, told, .inr removed⟩)) kept
  | @fetches tx' stored eq =>
    have ne : h ≠ tx'.hash := by
      rintro rfl
      exact kept (Or.inr (Or.inr ⟨tx', stored, rfl⟩))
    rw [eq]
    simpa [TxDb.insertTx, ne] using found

/-- A successful query makes what is ripe accepted, but not the queried one. -/
theorem Move.ripe_accepted (move : Move order w e w') (sound : Sound w)
    (passing : root ∈ w.passing e) (ripe : w.sleet.Ripe root h) (ne : h ≠ root) :
    ∃ tx, w.sleet.knownTxs.lookup h = some tx ∧
      w'.sleet.knownTxs.lookup h = some (Sleet.mark .accepted tx) := by
  cases move with
  | receives quiet => simp [quiet] at passing
  | @complete tx acks new delivered handled =>
    obtain ⟨done, _, exactly⟩ := Sleet.queryComplete_completed sound.linked handled
    obtain ⟨succeeds, rfl⟩ : w.sleet.Succeeds acks ∧ tx.hash = root := by
      simpa [Actor.passing, delivered] using passing
    by_cases current : w.status h = some .accepted
    · obtain ⟨old, found, accepted⟩ := status_eq_some.mp current
      have member : h ∉ new := fun member => ((exactly h).mp member).2.2 current
      refine ⟨old, found, ?_⟩
      rw [done.txs, if_neg ne, if_neg member, found, ← accepted]
      rfl
    · have member : h ∈ new := (exactly h).mpr ⟨succeeds, ripe, current⟩
      obtain ⟨old, found⟩ := Finmap.mem_iff.mp (done.known h member)
      refine ⟨old, found, ?_⟩
      rw [done.txs, if_neg ne, if_pos member, found]
      rfl
  | incomplete delivered _ => simp [Actor.passing, delivered] at passing
  | newAccepted delivered _ => simp [Actor.passing, delivered] at passing
  | fetches stored _ =>
    cases e with
    | fetch i response => simp [Actor.passing, message] at passing
    | _ => simp [fetched] at stored

/-- The record of what was accepted grows by what becomes ripe. -/
theorem Move.recorded (move : Move order w e w') (sound : Sound w) :
    ∃ new : List H, w'.accepted = w.accepted ++ new ∧ new.Nodup ∧
      (∀ h ∈ new, h ∈ w.sleet.knownTxs) ∧
      ∀ h, h ∈ new ↔ ∃ root ∈ w.passing e, w.sleet.Ripe root h ∧ w.status h ≠ some .accepted := by
  have quiet : w'.accepted = w.accepted → w.passing e = none → _ := fun same none_passes =>
    (⟨[], by simpa using same, List.nodup_nil, by simp, by simp [none_passes]⟩ :
      ∃ new : List H, w'.accepted = w.accepted ++ new ∧ new.Nodup ∧
        (∀ h ∈ new, h ∈ w.sleet.knownTxs) ∧
        ∀ h, h ∈ new ↔ ∃ root ∈ w.passing e, w.sleet.Ripe root h ∧ w.status h ≠ some .accepted)
  cases move with
  | receives none_passes _ _ _ accepted => exact quiet accepted none_passes
  | @complete tx acks new delivered handled _ _ accepted =>
    obtain ⟨done, nodup, exactly⟩ := Sleet.queryComplete_completed sound.linked handled
    refine ⟨new, accepted, nodup, done.known, fun h => (exactly h).trans ?_⟩
    simp [Actor.passing, delivered, status]
  | incomplete delivered _ _ _ accepted => exact quiet accepted (by simp [Actor.passing, delivered])
  | newAccepted delivered _ _ _ accepted =>
    exact quiet accepted (by simp [Actor.passing, delivered])
  | fetches stored _ _ _ accepted =>
    refine quiet accepted ?_
    cases e with
    | fetch i response => rfl
    | _ => simp [fetched] at stored

theorem Move.live_subset (move : Move order w e w') : w.live ⊆ w'.live := by
  cases move with
  | receives _ _ live => exact live
  | complete _ _ live => exact live ▸ subset_rfl
  | incomplete _ _ live => exact live ▸ subset_rfl
  | newAccepted _ _ live => exact live ▸ subset_rfl
  | fetches _ _ live => exact live ▸ subset_rfl

omit [Blake3 H] in
theorem mem_of_marked {db db' : TxDb H} (member : h ∈ db)
    (marked : db'.lookup h = (db.lookup h).map (Sleet.mark st)) : h ∈ db' := by
  obtain ⟨tx, found⟩ := Finmap.mem_iff.mp member
  exact Finmap.mem_of_lookup_eq_some (marked.trans (congrArg _ found))

omit [Blake3 H] in
theorem mem_of_same {db db' : TxDb H} (member : h ∈ db) (same : db'.lookup h = db.lookup h) :
    h ∈ db' := by
  obtain ⟨tx, found⟩ := Finmap.mem_iff.mp member
  exact Finmap.mem_of_lookup_eq_some (same.trans found)

omit [Blake3 H] in
theorem completed_known {s s' : Sleet H} {new : List H} (done : s.Completed root new s')
    (member : h ∈ s.knownTxs) : h ∈ s'.knownTxs := by
  have txs := done.txs h
  split at txs
  · exact mem_of_marked member txs
  · split at txs
    · exact mem_of_marked member txs
    · exact mem_of_same member txs

theorem Move.known (move : Move order w e w') (sound : Sound w) (member : h ∈ w.sleet.knownTxs) :
    h ∈ w'.sleet.knownTxs := by
  cases move with
  | receives _ takes => exact takes.admits.known h member
  | complete _ handled =>
    exact completed_known (Sleet.queryComplete_completed sound.linked handled).1 member
  | incomplete _ handled => exact completed_known (Sleet.queryIncomplete_completed handled) member
  | newAccepted _ handled =>
    obtain ⟨s₁, _, pruned, sweep, _⟩ := Sleet.newAccepted_sweep order sound.keyed handled
    rw [(Sleet.prune_some order pruned).1]
    exact sweep.known member
  | fetches _ eq =>
    rw [eq]
    exact Finmap.mem_insert.mpr (Or.inr member)

/-- The cell under a hash is the same whenever it is stored. -/
theorem Move.cell (move : Move order w e w')
    (injective : Function.Injective (Cell.hash : Cell H → H)) (sound : Sound w) {tx tx' : Tx H}
    (found : w.sleet.knownTxs.lookup h = some tx) (found' : w'.sleet.knownTxs.lookup h = some tx') :
    tx'.cell = tx.cell :=
  injective (((move.sound sound).keyed h tx' found').trans (sound.keyed h tx found).symm)

/-- No accepted status is overwritten, and no query makes its own transaction final. -/
structure Preserves (w : Actor H) (e : Event H) : Prop where
  kept : ∀ h, w.status h = some .accepted → ¬ w.Overwrites e h
  other : ∀ root ∈ w.passing e, ¬ w.sleet.Ripe root root

theorem Move.stays (move : Move order w e w') (sound : Sound w) (preserves : w.Preserves e)
    (accepted : w.status h = some .accepted) : w'.status h = some .accepted := by
  obtain ⟨tx, found, final⟩ := status_eq_some.mp accepted
  exact status_eq_some.mpr
    ⟨tx, move.accepted_kept sound found final (preserves.kept h accepted), final⟩

end Subzero.Actor
