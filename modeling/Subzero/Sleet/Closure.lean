import Subzero.Sleet.Accepted
import Subzero.Sleet.Finality
import Subzero.Sleet.Sample

/-! What an accepted transaction rests on: its parents, and the outputs it spends. A
query makes a transaction final with its ancestors in the DAG. So its parents are
accepted as long as the DAG leads to them, and what it spends is accepted as long as it
comes from its parents. -/
namespace Subzero.Actor
variable {H : Type} [DecidableEq H] [Blake3 H]
variable {s s' : Sleet H} {w w' : Actor H} {e : Event H} {order : HashOrder H}

/-- From a transaction that a query makes final, the DAG still leads to every parent
that is not accepted. -/
def Attached (w : Actor H) (e : Event H) : Prop :=
  ∀ root ∈ w.passing e, ∀ u ∈ w.sleet.dag.dfs root, w.sleet.Ripe root u →
    w.status u ≠ some .accepted → ∀ tx ∈ w.sleet.knownTxs.lookup u, ∀ p ∈ tx.parents,
      w.status p = some .accepted ∨ ∃ l ∈ w.sleet.dag.g.lookup u, p ∈ l

instance (w : Actor H) (e : Event H) : Decidable (w.Attached e) :=
  inferInstanceAs (Decidable (∀ root ∈ w.passing e, _))

/-- The condition on a step. A transaction that is fetched as accepted has accepted
parents. -/
structure Grounded (w : Actor H) (e : Event H) : Prop where
  preserves : w.Preserves e
  attached : w.Attached e
  fetched : ∀ tx ∈ w.fetched e, tx.status = .accepted →
    ∀ p ∈ tx.parents, p = tx.hash ∨ w.status p = some .accepted

def ParentsAccepted (w : Actor H) : Prop :=
  ∀ h tx, w.sleet.knownTxs.lookup h = some tx → tx.status = .accepted →
    ∀ p ∈ tx.parents, w.status p = some .accepted

omit [Blake3 H] in
theorem ripe_parent (linked : s.dag.Linked) {root u p : H} (ripe : s.Ripe root u)
    (edge : s.dag.Parent u p) : s.Ripe root p := by
  obtain ⟨present, path⟩ := linked.mem_dfs.mp ripe.1
  have inside : p ∈ s.dag.dfs u := linked.mem_dfs.mpr ⟨edge.mem, .single edge⟩
  exact ⟨linked.mem_dfs.mpr ⟨present, path.tail edge⟩,
    fun a ha => ripe.2 a (linked.dfs_subset inside ha)⟩

theorem Move.parents (move : Move order w e w') (sound : Sound w) (grounded : w.Grounded e)
    (before : w.ParentsAccepted) : w'.ParentsAccepted := by
  intro h tx found accepted p member
  have stays := fun p => move.stays (h := p) sound grounded.preserves
  rcases move.accepted_cases sound found accepted with
    old | ⟨root, passing, _, ripe, undecided, stored, known, rfl⟩ | ⟨fetched, rfl⟩
  · exact stays p (before h tx old accepted p member)
  · rcases grounded.attached root passing h ripe.1 ripe undecided stored known p member with
      current | ⟨l, lists, inside⟩
    · exact stays p current
    · -- the parent becomes final with its child, and it is not the queried one
      have ripe' := ripe_parent sound.linked ripe ⟨l, lists, inside⟩
      have ne : p ≠ root := by
        rintro rfl
        exact grounded.preserves.other p passing ripe'
      obtain ⟨_, _, marked⟩ := move.ripe_accepted sound passing ripe' ne
      exact status_eq_some.mpr ⟨_, marked, rfl⟩
  · rcases grounded.fetched tx fetched accepted p member with rfl | current
    · exact status_eq_some.mpr ⟨tx, found, accepted⟩
    · exact stays p current

theorem Plain.grounded (plain : w.Plain e) (attached : w.Attached e) : w.Grounded e :=
  ⟨plain.preserves, attached, fun tx stored => by simp [plain.1] at stored⟩

/-- In a run whose steps are all grounded, the parents of an accepted transaction are
accepted. -/
theorem accepted_parents_accepted (order : HashOrder H) (id : Id) (ip : SocketAddr)
    (peers : List (Id × SocketAddr)) (steps : List (Actor H × HashOrder H × Event H))
    (w : Actor H) (run : Run step (started (.new order id ip peers)) steps w)
    (meets : Meets (fun w x => w.Grounded x.2) steps) :
    ∀ v ∈ states steps w, ∀ h tx, v.sleet.knownTxs.lookup h = some tx → tx.status = .accepted →
      ∀ p ∈ tx.parents, v.status p = some .accepted := by
  have init : (started (.new order id ip peers) : Actor H).ParentsAccepted := fun h tx found => by
    simp [started, Sleet.new] at found
  have visited := (run.relates _ meets (fun w => Sound w ∧ w.ParentsAccepted) (fun _ _ => True)
    ⟨.started order id ip peers, init⟩ (fun _ => trivial) (fun _ _ _ _ _ => trivial) (by
      rintro u x v ⟨sound, before⟩ grounded taken
      have move := step_move taken
      exact ⟨⟨move.sound sound, move.parents sound grounded before⟩, trivial⟩)).2
  exact fun v hv => (visited v hv).1.2

/-- Parent and child are accepted together, and then the query of the parent
completes. -/
theorem accepted_parent_queried :
    ¬ ∀ (steps : List (Actor Digest × HashOrder Digest × Event Digest)) (w : Actor Digest),
      Run step sample steps w → ∀ h tx, w.sleet.knownTxs.lookup h = some tx →
        tx.status = .accepted → ∀ p ∈ tx.parents, w.status p = some .accepted := by
  intro closed
  let p := transfer [] 0
  let t := transfer [p] 1
  let children := (List.range 10).map fun i => transfer [t] (i + 2)
  let events := joins 12 :: receive p :: poll 3 true (t :: children) ++ query 1 14 true p
  have found : (runSample events).any (fun r => decide (r.2.status p.hash = some .queried ∧
      ∃ tx ∈ r.2.sleet.knownTxs.lookup t.hash, tx.status = .accepted ∧ p.hash ∈ tx.parents)) =
        true := by
    decide +kernel
  obtain ⟨steps, w, run, both⟩ := exec_any found
  obtain ⟨queried, tx, stored, accepted, member⟩ := of_decide_eq_true both
  have kept := closed steps w run t.hash tx stored accepted p.hash member
  rw [show w.status p.hash = some .queried from queried] at kept
  cases kept

theorem accepted_parents_accepted_chain :
    ∃ (steps : List (Actor Digest × HashOrder Digest × Event Digest)) (w : Actor Digest),
      Run step sample steps w ∧ w.hail.flatten.length = 2 ∧
        ∀ h tx, w.sleet.knownTxs.lookup h = some tx → tx.status = .accepted →
          ∀ p ∈ tx.parents, w.status p = some .accepted := by
  let t := transfer [] 0
  let u := transfer [t] 1
  let children := (List.range 10).map fun i => transfer [u] (i + 2)
  let events := joins 12 :: poll 1 true (t :: u :: children.take 9) ++ [.deliver 12] ++
    poll 12 true (children.drop 9) ++ [.deliver 13]
  have found : (runSample events).any (fun r => decide (r.2.hail.flatten.length = 2 ∧
      ∀ x ∈ r.1, x.1.Plain x.2.2 ∧ x.1.Attached x.2.2)) = true := by
    decide +kernel
  obtain ⟨steps, w, run, both⟩ := exec_any found
  obtain ⟨two, plain⟩ := of_decide_eq_true both
  have meets : Meets (fun w x => w.Grounded x.2) steps := fun x hx =>
    (plain x hx).1.grounded (plain x hx).2
  refine ⟨steps, w, run, two, ?_⟩
  exact accepted_parents_accepted _ _ _ _ steps w run meets w (by simp [states])

/-- What a transaction spends is live, or an output of a stored transaction that is
accepted or one of its parents. -/
def Sourced (live : Finset (CellId H)) (s : Sleet H) (tx : Tx H) : Prop :=
  ∀ c ∈ tx.cell.consumed, c ∈ live ∨ ∃ h ∈ s.knownTxs.keys, ∃ tx' ∈ s.knownTxs.lookup h,
    (tx'.status = .accepted ∨ h ∈ tx.parents) ∧ c ∈ tx'.cell.produced

instance (live : Finset (CellId H)) (s : Sleet H) (tx : Tx H) : Decidable (Sourced live s tx) :=
  inferInstanceAs (Decidable (∀ c ∈ tx.cell.consumed, _))

/-- The condition on a step: what is received and what is fetched is sourced. -/
structure Sources (order : HashOrder H) (w : Actor H) (e : Event H) : Prop where
  received : ∀ r ∈ w.receipts order e, r.1.Insertable r.2 → Sourced w.live r.1 r.2
  fetched : ∀ tx ∈ w.fetched e, Sourced w.live w.sleet tx

/-- Stored cells stay, and accepted transactions stay accepted. -/
def Carries (s s' : Sleet H) : Prop :=
  ∀ h tx, s.knownTxs.lookup h = some tx → ∃ tx', s'.knownTxs.lookup h = some tx' ∧
    tx'.cell = tx.cell ∧ (tx.status = .accepted → tx'.status = .accepted)

theorem Sourced.mono {live live' : Finset (CellId H)} {tx tx₁ : Tx H} (sourced : Sourced live s tx)
    (sub : live ⊆ live') (carries : Carries s s') (cell : tx₁.cell = tx.cell)
    (parents : tx₁.parents = tx.parents) : Sourced live' s' tx₁ := by
  intro c consumed
  rw [cell] at consumed
  rcases sourced c consumed with alive | ⟨h, _, tx', found, source, produced⟩
  · exact Or.inl (sub alive)
  · obtain ⟨tx'', found', same, accepted⟩ := carries h tx' found
    refine Or.inr ⟨h, HashMap.mem_keys_of_lookup found', tx'', found', ?_,
      same ▸ produced⟩
    rw [parents]
    exact source.imp accepted id

theorem admits_carries (admits : s.Admits s')
    (injective : Function.Injective (Cell.hash : Cell H → H)) (keyed : s.Keyed) : Carries s s' := by
  intro h tx found
  obtain ⟨tx', found'⟩ := Finmap.mem_iff.mp (admits.known h (Finmap.mem_of_lookup_eq_some found))
  refine ⟨tx', found', injective ((admits.keyed keyed h tx' found').trans (keyed h tx found).symm),
    fun accepted => ?_⟩
  obtain rfl := Option.mem_unique (admits.keeps h tx found (by simp [accepted])) found'
  exact accepted

theorem Move.carries (move : Move order w e w')
    (injective : Function.Injective (Cell.hash : Cell H → H)) (sound : Sound w)
    (preserves : w.Preserves e) : Carries w.sleet w'.sleet := by
  intro h tx found
  obtain ⟨tx', found'⟩ :=
    Finmap.mem_iff.mp (move.known sound (Finmap.mem_of_lookup_eq_some found))
  refine ⟨tx', found', move.cell injective sound found found', fun accepted => ?_⟩
  have kept := preserves.kept h (status_eq_some.mpr ⟨tx, found, accepted⟩)
  obtain rfl := Option.mem_unique (move.accepted_kept sound found accepted kept) found'
  exact accepted

/-- Everything that is stored is sourced. -/
def AllSourced (live : Finset (CellId H)) (s : Sleet H) : Prop :=
  ∀ h tx, s.knownTxs.lookup h = some tx → Sourced live s tx

theorem takes_sourced (injective : Function.Injective (Cell.hash : Cell H → H))
    {live : Finset (CellId H)} {added : Finset H} {rs : List (Sleet H × Tx H)}
    (takes : s.Takes added rs s') (keyed : s.Keyed)
    (received : ∀ r ∈ rs, r.1.Insertable r.2 → Sourced live r.1 r.2) (before : AllSourced live s) :
    AllSourced live s' := by
  induction takes with
  | done => exact before
  | @aside s s₁ _ _ step _ ih =>
    have carries : Carries s s₁ := fun h tx found => ⟨tx, step.txs ▸ found, rfl, id⟩
    refine ih (fun h tx found => keyed h tx (step.txs ▸ found)) received fun h tx found => ?_
    exact (before h tx (step.txs ▸ found)).mono subset_rfl carries rfl rfl
  | receive left _ ih =>
    have admits := Sleet.onReceiveTx_admits left
    have carries := admits_carries admits injective keyed
    refine ih (admits.keyed keyed) (fun r hr => received r (List.mem_cons_of_mem _ hr))
      fun h tx found => ?_
    rcases Sleet.onReceiveTx_stores left found with old | ⟨insertable, rfl⟩
    · exact (before h tx old).mono subset_rfl carries rfl rfl
    · exact (received _ List.mem_cons_self insertable).mono subset_rfl carries rfl rfl

theorem Move.sourced (move : Move order w e w')
    (injective : Function.Injective (Cell.hash : Cell H → H)) (sound : Sound w)
    (preserves : w.Preserves e) (sources : w.Sources order e) (before : AllSourced w.live w.sleet) :
    AllSourced w'.live w'.sleet := by
  have carries := move.carries injective sound preserves
  have grows := move.live_subset
  have marked : ∀ {tx' : Tx H} (h : H) (st : TxStatus),
      (w.sleet.knownTxs.lookup h).map (Sleet.mark st) = some tx' →
        Sourced w'.live w'.sleet tx' := by
    intro tx' h st found
    obtain ⟨tx, stored, rfl⟩ := Option.map_eq_some_iff.mp found
    exact (before h tx stored).mono grows carries rfl rfl
  have completed : ∀ {root : H} {new : List H}, w.sleet.Completed root new w'.sleet →
      AllSourced w'.live w'.sleet := by
    intro root new done h tx' found
    rw [done.txs] at found
    split at found
    · exact marked h _ found
    · split at found
      · exact marked h _ found
      · exact (before h tx' found).mono grows carries rfl rfl
  cases move with
  | receives _ takes live =>
    have after := takes_sourced injective takes sound.keyed sources.received before
    exact fun h tx' found => (after h tx' found).mono live
      (fun h tx found => ⟨tx, found, rfl, id⟩) rfl rfl
  | complete _ handled => exact completed (Sleet.queryComplete_completed sound.linked handled).1
  | incomplete _ handled => exact completed (Sleet.queryIncomplete_completed handled)
  | newAccepted _ handled =>
    obtain ⟨s₁, _, pruned, sweep, _⟩ := Sleet.newAccepted_sweep order sound.keyed handled
    intro h tx' found
    rw [(Sleet.prune_some order pruned).1] at found
    obtain ⟨tx, st, stored, rfl⟩ := sweep.stored found
    exact (before h tx stored).mono grows carries rfl rfl
  | @fetches tx stored eq =>
    intro h tx' found
    rw [eq] at found
    rcases HashMap.lookup_insert_some found with ⟨_, rfl⟩ | ⟨_, old⟩
    · exact (sources.fetched tx' stored).mono grows carries rfl rfl
    · exact (before h tx' old).mono grows carries rfl rfl

/-- In a run whose steps are all grounded and sourced, an input of an accepted
transaction is a live cell id or an output of an accepted one, and of no other. -/
theorem spent_outputs_accepted (injective : Function.Injective (Cell.hash : Cell H → H))
    (ids : ∀ (h h' : H) i j, CellId.fromOutput h i = CellId.fromOutput h' j → h = h')
    (order : HashOrder H) (id : Id) (ip : SocketAddr) (peers : List (Id × SocketAddr))
    (steps : List (Actor H × HashOrder H × Event H)) (w : Actor H)
    (run : Run step (started (.new order id ip peers)) steps w)
    (meets : Meets (fun w x => w.Grounded x.2 ∧ w.Sources x.1 x.2) steps) :
    ∀ v ∈ states steps w, ∀ h tx, v.sleet.knownTxs.lookup h = some tx → tx.status = .accepted →
      ∀ c ∈ tx.cell.consumed, c ∈ v.live ∨
        (∃ h' tx', v.sleet.knownTxs.lookup h' = some tx' ∧ tx'.status = .accepted ∧
          c ∈ tx'.cell.produced) ∧
        ∀ h' tx', v.sleet.knownTxs.lookup h' = some tx' → c ∈ tx'.cell.produced →
          tx'.status = .accepted := by
  intro v hv h tx found accepted c consumed
  have init : (started (.new order id ip peers) : Actor H).ParentsAccepted ∧
      AllSourced (started (.new order id ip peers) : Actor H).live
        (started (.new order id ip peers) : Actor H).sleet := by
    constructor <;> intro h tx found <;> simp [started, Sleet.new] at found
  obtain ⟨sound, parents, sourced⟩ := ((run.relates _ meets
    (fun w => Sound w ∧ w.ParentsAccepted ∧ AllSourced w.live w.sleet) (fun _ _ => True)
    ⟨.started order id ip peers, init⟩ (fun _ => trivial) (fun _ _ _ _ _ => trivial) (by
      rintro u x v ⟨sound, parents, sourced⟩ ⟨grounded, sources⟩ taken
      have move := step_move taken
      exact ⟨⟨move.sound sound, move.parents sound grounded parents,
        move.sourced injective sound grounded.preserves sources sourced⟩, trivial⟩)).2 v hv).1
  rcases sourced h tx found c consumed with alive | ⟨h₁, _, tx₁, found₁, source, produced₁⟩
  · exact Or.inl alive
  · have accepted₁ : tx₁.status = .accepted := by
      rcases source with current | parent
      · exact current
      · obtain ⟨tx', again, current⟩ := status_eq_some.mp (parents h tx found accepted h₁ parent)
        obtain rfl := Option.mem_unique again found₁
        exact current
    refine Or.inr ⟨⟨h₁, tx₁, found₁, accepted₁, produced₁⟩, fun h₂ tx₂ found₂ produced₂ => ?_⟩
    have hash : tx₁.hash = tx₂.hash := Cell.produced_hash ids produced₁ produced₂
    rw [sound.keyed h₁ tx₁ found₁, sound.keyed h₂ tx₂ found₂] at hash
    subst hash
    obtain rfl : tx₁ = tx₂ := Option.mem_unique found₁ found₂
    exact accepted₁

/-- A transfer of the output of a pending transaction, which is not its parent, is
accepted. -/
theorem spent_output_pending :
    ¬ ∀ (steps : List (Actor Digest × HashOrder Digest × Event Digest)) (w : Actor Digest),
      Run step sample steps w → ∀ h tx, w.sleet.knownTxs.lookup h = some tx →
        tx.status = .accepted → ∀ c ∈ tx.cell.consumed, c ∈ w.live ∨
          ∃ h' tx', w.sleet.knownTxs.lookup h' = some tx' ∧ tx'.status = .accepted ∧
            c ∈ tx'.cell.produced := by
  intro closed
  let p := transfer [] 0
  let t : Tx Digest := .new [] (pay [p.cell] 8)
  let children := (List.range 10).map fun i => transfer [t] (i + 1)
  let events := joins 12 :: receive p :: poll 3 true (t :: children)
  have found : (runSample events).any (fun r => decide
      ((∃ tx ∈ r.2.sleet.knownTxs.lookup t.hash, tx.status = .accepted ∧
        coin p.cell ∈ tx.cell.consumed) ∧ coin p.cell ∉ r.2.live ∧
      ∀ h' ∈ r.2.sleet.knownTxs.keys, ∀ tx' ∈ r.2.sleet.knownTxs.lookup h',
        tx'.status = .accepted → coin p.cell ∉ tx'.cell.produced)) = true := by
    decide +kernel
  obtain ⟨steps, w, run, both⟩ := exec_any found
  obtain ⟨⟨tx, stored, accepted, consumed⟩, dead, others⟩ := of_decide_eq_true both
  rcases closed steps w run t.hash tx stored accepted (coin p.cell) consumed with
    live | ⟨h', tx', found', accepted', produced⟩
  · exact dead live
  · exact others h' (HashMap.mem_keys_of_lookup found') tx' found'
      accepted' produced

theorem spent_outputs_accepted_chain :
    ∃ (steps : List (Actor Digest × HashOrder Digest × Event Digest)) (w : Actor Digest),
      Run step sample steps w ∧ w.hail.flatten.length = 2 ∧
        ∀ h tx, w.sleet.knownTxs.lookup h = some tx → tx.status = .accepted →
          ∀ c ∈ tx.cell.consumed, c ∉ w.live →
            ∀ h' tx', w.sleet.knownTxs.lookup h' = some tx' → c ∈ tx'.cell.produced →
              tx'.status = .accepted := by
  let t := transfer [] 0
  let u : Tx Digest := .new [t.hash] (pay [t.cell] 8)
  let children := (List.range 10).map fun i => transfer [u] (i + 1)
  let events := joins 11 :: poll 1 true (t :: u :: children.take 9) ++ [.deliver 12] ++
    poll 12 true (children.drop 9) ++ [.deliver 13]
  have found : (runSample events).any (fun r => decide (r.2.hail.flatten.length = 2 ∧
      ∀ x ∈ r.1, x.1.Plain x.2.2 ∧ x.1.Attached x.2.2 ∧
        ∀ q ∈ x.1.receipts x.2.1 x.2.2, Sourced x.1.live q.1 q.2)) = true := by
    decide +kernel
  obtain ⟨steps, w, run, both⟩ := exec_any found
  obtain ⟨two, plain⟩ := of_decide_eq_true both
  have meets : Meets (fun w x => w.Grounded x.2 ∧ w.Sources x.1 x.2) steps := by
    intro x hx
    obtain ⟨ok, attached, sourced⟩ := plain x hx
    refine ⟨ok.grounded attached, fun q hq _ => sourced q hq, fun tx stored => ?_⟩
    simp [ok.1] at stored
  refine ⟨steps, w, run, two, fun h tx found accepted c consumed dead => ?_⟩
  have closed := spent_outputs_accepted hash_injective fromOutput_hash _ _ _ _ steps w run meets w
    (by simp [states]) h tx found accepted c consumed
  exact (closed.resolve_left dead).2

end Subzero.Actor
