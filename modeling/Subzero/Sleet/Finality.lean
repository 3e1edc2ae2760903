import Subzero.Sleet.Accepted
import Subzero.Sleet.Sample

/-! Final statuses. Nothing protects a status that was written: the completion of
a query overwrites it, and so does the removal of conflicts. -/
namespace Subzero.Actor
variable {H : Type} [DecidableEq H] [Blake3 H]
variable {w w' : Actor H} {e : Event H}

/-- Neither accepted nor rejected. -/
def Undecided (w : Actor H) (h : H) : Prop :=
  w.status h ≠ some .accepted ∧ w.status h ≠ some .rejected

instance (w : Actor H) (h : H) : Decidable (w.Undecided h) := inferInstanceAs (Decidable (_ ∧ _))

/-- A message overwrites no final status: the queried transaction is undecided and
is not accepted by its own query, and the removal of conflicts finds no accepted
one among the conflicts and only undecided ones among their progeny. -/
def SparesFinal (w : Actor H) : Message H → Prop
  | .queryComplete tx acks => w.Undecided tx.hash ∧
      (w.sleet.Succeeds acks → ¬ w.sleet.Ripe tx.hash tx.hash)
  | .queryIncomplete tx _ => w.Undecided tx.hash
  | .newAccepted hashes => (∀ r, w.sleet.Rejects hashes r → w.status r ≠ some .accepted) ∧
      ∀ d, w.sleet.Removes hashes d → w.Undecided d
  | _ => True

/-- The condition on a step. A transaction that is fetched during the bootstrap
overwrites what is stored, so it has to be undecided too. -/
def Spares (w : Actor H) (e : Event H) : Prop :=
  (∀ m ∈ w.message e, w.SparesFinal m) ∧ ∀ tx ∈ w.fetched e, w.Undecided tx.hash

/-- A condition that can be evaluated and is enough: the transactions of a
`NewAccepted` message have no conflicts, and nothing is fetched. -/
def Plain (w : Actor H) (e : Event H) : Prop :=
  w.fetched e = none ∧
    match w.message e with
    | some (.queryComplete tx acks) => w.Undecided tx.hash ∧
        (w.sleet.Succeeds acks → ¬ w.sleet.Ripe tx.hash tx.hash)
    | some (.queryIncomplete tx _) => w.Undecided tx.hash
    | some (.newAccepted hashes) => w.sleet.Unopposed hashes
    | _ => True

instance (w : Actor H) (e : Event H) : Decidable (w.Plain e) :=
  match fetched : w.fetched e, message : w.message e with
  | some _, _ => isFalse fun plain => by simp [Plain, fetched] at plain
  | none, some (.queryComplete tx acks) =>
    decidable_of_iff (w.Undecided tx.hash ∧
      (w.sleet.Succeeds acks → ¬ w.sleet.Ripe tx.hash tx.hash)) (by simp [Plain, fetched, message])
  | none, some (.queryIncomplete tx _) =>
    decidable_of_iff (w.Undecided tx.hash) (by simp [Plain, fetched, message])
  | none, some (.newAccepted hashes) =>
    decidable_of_iff (w.sleet.Unopposed hashes) (by simp [Plain, fetched, message])
  | none, some .bootstrap | none, some (.fetchWithAncestry _) | none, some (.freshTx _)
  | none, some .checkPending | none, some (.askForAncestors _ _ _) | none, none =>
    isTrue (by simp [Plain, fetched, message])

theorem Plain.spares (plain : w.Plain e) : w.Spares e := by
  obtain ⟨nothing, delivered⟩ := plain
  refine ⟨fun m found => ?_, fun tx stored => by simp [nothing] at stored⟩
  rw [Option.mem_def.mp found] at delivered
  cases m with
  | queryComplete tx acks => exact delivered
  | queryIncomplete tx acks => exact delivered
  | newAccepted hashes =>
    refine ⟨fun r rejected => absurd rejected (delivered.not_rejects r), ?_⟩
    rintro d ⟨r, rejected, _⟩
    exact absurd rejected (delivered.not_rejects r)
  | _ => exact trivial

theorem Plain.not_overwrites (plain : w.Plain e) {h : H} (accepted : w.status h = some .accepted) :
    ¬ w.Overwrites e h := by
  obtain ⟨nothing, delivered⟩ := plain
  rintro (queried | ⟨hashes, told, swept⟩ | ⟨tx, stored, _⟩)
  · unfold Actor.queried at queried
    split at queried
    · rename_i eq
      rw [eq] at delivered
      cases queried
      exact delivered.1.1 accepted
    · rename_i eq
      rw [eq] at delivered
      cases queried
      exact delivered.1 accepted
    · cases queried
  · rw [accepting_some.mp told] at delivered
    rcases swept with rejected | ⟨r, rejected, _⟩
    · exact delivered.not_rejects h rejected
    · exact delivered.not_rejects r rejected
  · simp [nothing] at stored

theorem Plain.preserves (plain : w.Plain e) : w.Preserves e := by
  refine ⟨fun _ => plain.not_overwrites, fun root passing ripe => ?_⟩
  unfold Actor.passing at passing
  split at passing
  · rename_i tx acks delivered
    have alone := plain.2
    rw [delivered] at alone
    split at passing
    · rename_i succeeds
      obtain rfl := Option.mem_unique passing rfl
      exact alone.2 succeeds ripe
    · cases passing
  · cases passing

/-- Final statuses are kept. -/
structure Keeps (w w' : Actor H) : Prop where
  accepted : ∀ h, w.status h = some .accepted → w'.status h = some .accepted
  rejected : ∀ h, w.status h = some .rejected → w'.status h = some .rejected

/-- What was posted as accepted is accepted, and was posted once. -/
structure Accounted (w : Actor H) : Prop where
  accepted : ∀ h ∈ w.accepted, w.status h = some .accepted
  nodup : w.accepted.Nodup

section
omit [Blake3 H]

theorem Keeps.refl (w : Actor H) : Keeps w w := ⟨fun _ => id, fun _ => id⟩

theorem Keeps.trans {w₁ w₂ w₃ : Actor H} (first : Keeps w₁ w₂) (second : Keeps w₂ w₃) :
    Keeps w₁ w₃ :=
  ⟨fun h st => second.accepted h (first.accepted h st),
    fun h st => second.rejected h (first.rejected h st)⟩

theorem ripe_not_rejected {s : Sleet H} (linked : s.dag.Linked) {root h : H}
    (ripe : s.Ripe root h) : s.knownTxs.status h ≠ some .rejected := by
  obtain ⟨present, path⟩ := linked.mem_dfs.mp ripe.1
  have inside := linked.ancestor_mem present path
  rcases ripe.2 h (linked.self_mem_dfs inside) with accepted | ⟨_, notRejected, _⟩
  · simp [accepted]
  · exact notRejected

end

theorem admits_keeps (admits : w.sleet.Admits w'.sleet) : Keeps w w' := by
  have stays : ∀ h st, st ≠ .removed → w.status h = some st → w'.status h = some st := by
    intro h st alive current
    obtain ⟨tx, found, rfl⟩ := Option.map_eq_some_iff.mp current
    exact Option.map_eq_some_iff.mpr ⟨tx, admits.keeps h tx found alive, rfl⟩
  exact ⟨fun h => stays h _ (by decide), fun h => stays h _ (by decide)⟩

omit [Blake3 H] in
/-- A completed query writes the status of the queried transaction and of the new
ones, which were not final. -/
theorem completed_keeps {root : H} {new : List H} (done : w.sleet.Completed root new w'.sleet)
    (undecided : w.Undecided root) (open_ : ∀ h ∈ new, w.Undecided h) : Keeps w w' := by
  have stays : ∀ h, ¬ w.Undecided h → w'.status h = w.status h := by
    intro h final
    have ne : h ≠ root := by rintro rfl; exact final undecided
    have old : h ∉ new := fun member => final (open_ h member)
    refine status_of_lookup ?_
    rw [done.txs, if_neg ne, if_neg old]
  refine ⟨fun h st => ?_, fun h st => ?_⟩
  · rw [stays h fun u => u.1 st, st]
  · rw [stays h fun u => u.2 st, st]

theorem sweep_keeps {R D : H → Prop} (sweep : w.sleet.Sweep R D w'.sleet)
    (rejects : ∀ r, R r → w.status r ≠ some .accepted) (removes : ∀ d, D d → w.Undecided d) :
    Keeps w w' := by
  refine ⟨fun h st => ?_, fun h st => ?_⟩
  · rcases sweep.txs h with same | ⟨r, _⟩ | ⟨d, _⟩
    · rw [status_of_lookup same, st]
    · exact absurd st (rejects h r)
    · exact absurd st (removes h d).1
  · rcases sweep.txs h with same | ⟨_, marked⟩ | ⟨d, _⟩
    · rw [status_of_lookup same, st]
    · rw [status_of_mark marked, st]
      rfl
    · exact absurd st (removes h d).2

theorem Move.keeps {order : HashOrder H} (move : Move order w e w') (sound : Sound w)
    (spares : w.Spares e) : Keeps w w' := by
  cases move with
  | receives _ takes => exact admits_keeps takes.admits
  | complete delivered completed =>
    obtain ⟨done, _, exactly⟩ := Sleet.queryComplete_completed sound.linked completed
    refine completed_keeps done (spares.1 _ delivered).1 fun h member => ?_
    obtain ⟨_, ripe, undecided⟩ := (exactly h).mp member
    exact ⟨undecided, ripe_not_rejected sound.linked ripe⟩
  | incomplete delivered completed =>
    exact completed_keeps (Sleet.queryIncomplete_completed completed) (spares.1 _ delivered)
      (by simp)
  | newAccepted delivered handled =>
    obtain ⟨s₁, _, pruned, sweep, _⟩ := Sleet.newAccepted_sweep order sound.keyed handled
    obtain ⟨rejects, removes⟩ := spares.1 _ delivered
    have swept : Keeps w { w' with sleet := s₁ } := sweep_keeps sweep rejects removes
    have same : ∀ h, w'.status h = Actor.status { w' with sleet := s₁ } h := fun h =>
      status_of_lookup (by rw [(Sleet.prune_some order pruned).1])
    exact ⟨fun h st => (same h).trans (swept.accepted h st),
      fun h st => (same h).trans (swept.rejected h st)⟩
  | @fetches tx stored eq =>
    have stays : ∀ h, ¬ w.Undecided h → w'.status h = w.status h := by
      intro h final
      have ne : h ≠ tx.hash := by rintro rfl; exact final (spares.2 tx stored)
      refine status_of_lookup ?_
      rw [eq]
      simp [TxDb.insertTx, ne]
    refine ⟨fun h st => ?_, fun h st => ?_⟩
    · rw [stays h fun u => u.1 st, st]
    · rw [stays h fun u => u.2 st, st]

theorem Move.accounted {order : HashOrder H} (move : Move order w e w') (sound : Sound w)
    (spares : w.Spares e) (before : Accounted w) : Accounted w' := by
  have keeps := move.keeps sound spares
  have same : w'.accepted = w.accepted → Accounted w' := fun eq =>
    ⟨fun h member => keeps.accepted h (before.accepted h (eq ▸ member)), eq.symm ▸ before.nodup⟩
  cases move with
  | receives _ _ _ _ accepted => exact same accepted
  | incomplete _ _ _ _ accepted => exact same accepted
  | newAccepted _ _ _ _ accepted => exact same accepted
  | fetches _ _ _ _ accepted => exact same accepted
  | @complete tx acks new delivered completed _ _ accepted =>
    obtain ⟨done, nodup, exactly⟩ := Sleet.queryComplete_completed sound.linked completed
    have fresh : ∀ h ∈ new, w.status h ≠ some .accepted := fun h member =>
      ((exactly h).mp member).2.2
    refine ⟨fun h member => ?_, ?_⟩
    · rw [accepted] at member
      rcases List.mem_append.mp member with old | member
      · exact keeps.accepted h (before.accepted h old)
      · -- the queried transaction itself is not among the new ones
        obtain ⟨succeeds, ripe, _⟩ := (exactly h).mp member
        have ne : h ≠ tx.hash := by
          rintro rfl
          exact (spares.1 _ delivered).2 succeeds ripe
        obtain ⟨stored, found⟩ := Finmap.mem_iff.mp (done.known h member)
        have marked := done.txs h
        rw [if_neg ne, if_pos member] at marked
        rw [status_of_mark marked]
        simp [status, TxDb.status, found]
    · rw [accepted]
      refine List.nodup_append.mpr ⟨before.nodup, nodup, ?_⟩
      rintro a old b new rfl
      exact fresh a new (before.accepted a old)

/-- In a run whose steps all spare final statuses, a final status is kept from any
state to the last, and every hash is posted as accepted at most once. -/
theorem final_statuses_final (order : HashOrder H) (id : Id) (ip : SocketAddr)
    (peers : List (Id × SocketAddr)) (steps : List (Actor H × HashOrder H × Event H))
    (w : Actor H) (run : Run step (started (.new order id ip peers)) steps w)
    (meets : Meets (fun w x => w.Spares x.2) steps) :
    (∀ v ∈ states steps w, ∀ h, v.status h = some .accepted → w.status h = some .accepted) ∧
      (∀ v ∈ states steps w, ∀ h, v.status h = some .rejected → w.status h = some .rejected) ∧
      (∀ h ∈ w.accepted, w.status h = some .accepted) ∧ w.accepted.Nodup := by
  have init : Sound (started (.new order id ip peers)) ∧
      Accounted (started (.new order id ip peers) : Actor H) :=
    ⟨.started order id ip peers, by simp [started], by simp [started]⟩
  obtain ⟨⟨_, accounted⟩, keeps⟩ := run.relates _ meets (fun w => Sound w ∧ Accounted w) Keeps init
    .refl (fun _ _ _ => .trans) (by
      rintro u x v ⟨sound, accounted⟩ spares taken
      have move := step_move taken
      exact ⟨⟨move.sound sound, move.accounted sound spares accounted⟩,
        move.keeps sound spares⟩)
  exact ⟨fun v hv => (keeps v hv).2.accepted, fun v hv => (keeps v hv).2.rejected,
    accounted.accepted, accounted.nodup⟩

/-- A transaction whose eleven children are queried before its own query completes.
It is accepted by the last child and then marked as queried. -/
theorem final_statuses_not_final :
    ¬ ∀ (steps : List (Actor Digest × HashOrder Digest × Event Digest)) (w : Actor Digest),
      Run step sample steps w → ∀ v ∈ states steps w, ∀ h,
        v.status h = some .accepted → w.status h = some .accepted := by
  intro final
  let t := transfer [] 0
  let children := (List.range 11).map fun i => transfer [t] (i + 1)
  let events := joins 12 :: receive t :: poll 3 true children ++ query 1 14 true t
  have found : (runSample events).any (fun r => decide (r.2.status t.hash = some .queried ∧
      ∃ x ∈ r.1, x.1.status t.hash = some .accepted)) = true := by
    decide +kernel
  obtain ⟨steps, w, run, both⟩ := exec_any found
  obtain ⟨queried, x, member, accepted⟩ := of_decide_eq_true both
  have visited : x.1 ∈ states steps w :=
    List.mem_append_left _ (List.mem_map_of_mem member)
  have kept := final steps w run x.1 visited t.hash accepted
  rw [show w.status t.hash = some .queried from queried] at kept
  cases kept

theorem final_statuses_final_chain :
    ∃ (steps : List (Actor Digest × HashOrder Digest × Event Digest)) (w : Actor Digest),
      Run step sample steps w ∧ w.accepted.length = 1 ∧ w.hail.length = 1 ∧
        ∀ h ∈ w.accepted, w.status h = some .accepted := by
  let t := transfer [] 0
  let children := (List.range 10).map fun i => transfer [t] (i + 1)
  let events := joins 12 :: poll 1 true (t :: children) ++ [.deliver 12]
  have found : (runSample events).any (fun r => decide (r.2.accepted.length = 1 ∧
      r.2.hail.length = 1 ∧ ∀ x ∈ r.1, x.1.Plain x.2.2)) = true := by
    decide +kernel
  obtain ⟨steps, w, run, both⟩ := exec_any found
  obtain ⟨one, sent, plain⟩ := of_decide_eq_true both
  have meets : Meets (fun w x => w.Spares x.2) steps := fun x hx => (plain x hx).spares
  exact ⟨steps, w, run, one, sent, (final_statuses_final _ _ _ _ steps w run meets).2.2.1⟩

end Subzero.Actor
