import Subzero.Graph.Detection
import Subzero.Graph.Transpose
import Subzero.Sleet.Accepted
import Subzero.Sleet.Sample

/-! Double spends. A transaction is final once its counter is high enough, whether
or not one of its conflicts is final too. -/
namespace Subzero.Actor
variable {H : Type} [DecidableEq H] [Blake3 H]

/-- The cell ids that a stored transaction consumes. -/
def spends (w : Actor H) (h : H) : Finset (CellId H) :=
  match w.sleet.knownTxs.lookup h with
  | some tx => tx.cell.consumed
  | none => ∅

/-- The condition on a step. The first two fields ask that no accepted status is
overwritten; that the conflicts of an accepted transaction are not accepted is proved.
A transaction that becomes final has no conflict that is final or becomes final with
it. A transaction that is inserted overwrites no recorded spender, and nothing is fetched
as accepted. -/
structure Exclusive (order : HashOrder H) (w : Actor H) (e : Event H) : Prop where
  queried : ∀ h ∈ w.queried e, w.status h ≠ some .accepted
  progeny : ∀ hashes ∈ w.accepting e, ∀ h, w.sleet.Removes hashes h → w.status h ≠ some .accepted
  other : ∀ root ∈ w.passing e, ¬ w.sleet.Ripe root root
  alone : ∀ root ∈ w.passing e, ∀ u ∈ w.sleet.dag.dfs root, w.sleet.Ripe root u →
    w.status u ≠ some .accepted → ∀ set ∈ w.sleet.conflictGraph.cs.lookup u,
      ∀ k ∈ set.conflicts, k ≠ u → w.status k ≠ some .accepted ∧ ¬ w.sleet.Ripe root k
  unspent : ∀ r ∈ w.receipts order e, r.1.Insertable r.2 →
    r.1.conflictGraph.Unspent (.insertCell r.2.cell)
  fetched : ∀ tx ∈ w.fetched e, tx.status ≠ .accepted ∧ w.status tx.hash ≠ some .accepted

/-- What was stored is stored, with the same cell, and what was accepted once is
recorded. -/
structure Grows (w w' : Actor H) : Prop where
  known : ∀ h ∈ w.sleet.knownTxs, h ∈ w'.sleet.knownTxs
  spends : ∀ h ∈ w.sleet.knownTxs, w'.spends h = w.spends h
  accepted : w.accepted ⊆ w'.accepted

theorem spends_of_lookup {w : Actor H} {h : H} {tx : Tx H}
    (found : w.sleet.knownTxs.lookup h = some tx) : w.spends h = tx.cell.consumed := by
  simp [spends, found]

theorem Grows.refl (w : Actor H) : Grows w w := ⟨fun _ => id, fun _ _ => rfl, fun _ => id⟩

theorem Grows.trans {w₁ w₂ w₃ : Actor H} (first : Grows w₁ w₂) (second : Grows w₂ w₃) :
    Grows w₁ w₃ where
  known h member := second.known h (first.known h member)
  spends h member := (second.spends h (first.known h member)).trans (first.spends h member)
  accepted := List.Subset.trans first.accepted second.accepted

/-- The ledger of a node: everything that was accepted is accepted, was accepted once
and without a common input, and is either in a message or sent to hail. Its conflicts
are still traced. -/
structure Ledger (w : Actor H) : Prop where
  held : ∀ h, w.status h = some .accepted ↔ h ∈ w.accepted
  nodup : w.accepted.Nodup
  apart : ∀ u ∈ w.accepted, ∀ v ∈ w.accepted, u ≠ v → Disjoint (w.spends u) (w.spends v)
  sent : (w.hail.flatten.map Cell.hash ++ posted w.mailbox).Perm w.accepted
  cells : ∀ c ∈ w.hail.flatten, w.spends c.hash = c.consumed
  traced : w.sleet.conflictGraph.Traced
  seated : ∀ h ∈ w.accepted, h ∈ w.sleet.conflictGraph.cs

theorem Ledger.started (order : HashOrder H) (id : Id) (ip : SocketAddr)
    (peers : List (Id × SocketAddr)) : Ledger (started (.new order id ip peers) : Actor H) where
  held := by simp [Actor.started, Sleet.new, status, TxDb.status]
  nodup := List.nodup_nil
  apart := by simp [Actor.started]
  sent := by simp [Actor.started, posted]
  cells := by simp [Actor.started]
  traced := .new order ∅
  seated := by simp [Actor.started]

theorem Ledger.stored {w : Actor H} (ledger : Ledger w) {h : H} (member : h ∈ w.accepted) :
    h ∈ w.sleet.knownTxs := by
  obtain ⟨tx, found, _⟩ := status_eq_some.mp ((ledger.held h).mpr member)
  exact Finmap.mem_of_lookup_eq_some found

/-- What is sent to hail has no input twice. -/
theorem Ledger.hail_apart {w : Actor H} (ledger : Ledger w) :
    w.hail.flatten.Pairwise fun c c' => Disjoint c.consumed c'.consumed := by
  have nodup : (w.hail.flatten.map Cell.hash).Nodup :=
    (List.nodup_append.mp (ledger.sent.nodup_iff.mpr ledger.nodup)).1
  have recorded : ∀ c ∈ w.hail.flatten, c.hash ∈ w.accepted := fun c hc =>
    ledger.sent.subset (List.mem_append_left _ (List.mem_map_of_mem hc))
  refine List.Nodup.pairwise_of_forall_ne nodup.of_map fun c hc c' hc' ne => ?_
  rw [← ledger.cells c hc, ← ledger.cells c' hc']
  refine ledger.apart _ (recorded c hc) _ (recorded c' hc') fun same => ne ?_
  exact List.inj_on_of_nodup_map nodup hc hc' same

variable {order : HashOrder H} {w w' : Actor H} {e : Event H}

/-- The cell under a hash is the same whenever it is stored. -/
theorem Move.spends (move : Move order w e w')
    (injective : Function.Injective (Cell.hash : Cell H → H)) (sound : Sound w) {h : H}
    (member : h ∈ w.sleet.knownTxs) : w'.spends h = w.spends h := by
  obtain ⟨tx, found⟩ := Finmap.mem_iff.mp member
  obtain ⟨tx', found'⟩ := Finmap.mem_iff.mp (move.known sound member)
  rw [spends_of_lookup found, spends_of_lookup found', move.cell injective sound found found']

theorem Move.grows (move : Move order w e w')
    (injective : Function.Injective (Cell.hash : Cell H → H)) (sound : Sound w) : Grows w w' := by
  obtain ⟨new, accepted, _⟩ := move.recorded sound
  exact ⟨fun _ => move.known sound, fun _ => move.spends injective sound,
    accepted ▸ List.subset_append_left _ _⟩

theorem Move.sent (move : Move order w e w') (sound : Sound w)
    (sent : (w.hail.flatten.map Cell.hash ++ posted w.mailbox).Perm w.accepted) :
    (w'.hail.flatten.map Cell.hash ++ posted w'.mailbox).Perm w'.accepted ∧
      ∀ c ∈ w'.hail.flatten, c ∈ w.hail.flatten ∨ w.spends c.hash = c.consumed ∧
        c.hash ∈ w.sleet.knownTxs := by
  cases move with
  | receives _ _ _ hail accepted mailbox =>
    rw [hail, accepted]
    exact ⟨(mailbox.append_left _).trans sent, fun _ => Or.inl⟩
  | complete _ _ _ hail accepted mailbox =>
    rw [hail, accepted]
    refine ⟨(mailbox.append_left _).trans ?_, fun _ => Or.inl⟩
    rw [← List.append_assoc]
    exact sent.append_right _
  | incomplete _ _ _ hail accepted mailbox =>
    rw [hail, accepted]
    exact ⟨(mailbox.append_left _).trans sent, fun _ => Or.inl⟩
  | @newAccepted hashes cells _ handled _ hail accepted mailbox =>
    obtain ⟨_, _, _, _, forwarded⟩ := Sleet.newAccepted_sweep order sound.keyed handled
    rw [hail, accepted]
    refine ⟨?_, fun c hc => ?_⟩
    · simp only [List.flatten_append, List.flatten_singleton, List.map_append, List.append_assoc,
        forwarded.hashes sound.keyed]
      exact (mailbox.append_left _).trans sent
    · simp only [List.flatten_append, List.flatten_singleton, List.mem_append] at hc
      rcases hc with old | new
      · exact Or.inl old
      · obtain ⟨h, tx, found, rfl⟩ := forwarded.stored c new
        rw [show tx.cell.hash = h from sound.keyed h tx found]
        exact Or.inr ⟨spends_of_lookup found, Finmap.mem_of_lookup_eq_some found⟩
  | fetches _ _ _ hail accepted mailbox =>
    rw [hail, accepted, mailbox]
    exact ⟨sent, fun _ => Or.inl⟩

theorem graph_cell (injective : Function.Injective (Cell.hash : Cell H → H)) (sound : Sound w)
    (consistent : w.sleet.conflictGraph.Consistent) {h : H} (member : h ∈ w.sleet.knownTxs)
    (known : h ∈ w.sleet.conflictGraph.cs) :
    ∃ cell, w.sleet.conflictGraph.cells.lookup h = some cell ∧ w.spends h = cell.consumed := by
  obtain ⟨tx, found⟩ := Finmap.mem_iff.mp member
  obtain ⟨cell, stored⟩ := Finmap.mem_iff.mp (consistent.cs_cells h known)
  have same : tx.cell = cell :=
    injective ((sound.keyed h tx found).trans (consistent.hashed h cell stored).symm)
  exact ⟨cell, stored, same ▸ spends_of_lookup found⟩

/-- Two stored transactions with conflict sets share an input if and only if one is in
the set of the other. -/
theorem conflict_iff (injective : Function.Injective (Cell.hash : Cell H → H)) (sound : Sound w)
    (traced : w.sleet.conflictGraph.Traced) {t u : H} {set : ConflictSet H} (ne : t ≠ u)
    (storedT : t ∈ w.sleet.knownTxs) (storedU : u ∈ w.sleet.knownTxs)
    (found : w.sleet.conflictGraph.cs.lookup t = some set) (known : u ∈ w.sleet.conflictGraph.cs) :
    u ∈ set.conflicts ↔ ¬ Disjoint (w.spends t) (w.spends u) := by
  have consistent := traced.consistent
  obtain ⟨cellT, thereT, spendsT⟩ :=
    graph_cell injective sound consistent storedT (Finmap.mem_of_lookup_eq_some found)
  obtain ⟨cellU, thereU, spendsU⟩ := graph_cell injective sound consistent storedU known
  rw [traced.exactly t u cellT cellU ne thereT thereU known set found, spendsT, spendsU,
    Finset.not_disjoint_iff]

omit [DecidableEq H] [Blake3 H] in
theorem accepting_posted {h : H} {hashes : List H} (told : w.accepting e = some hashes)
    (listed : h ∈ hashes) : h ∈ posted w.mailbox := by
  have delivered := accepting_some.mp told
  cases e with
  | deliver i =>
    refine (posted_eraseIdx delivered).subset (List.mem_append_left _ ?_)
    simpa [posted] using listed
  | _ => simp [message] at delivered

/-- The conflicts of what was accepted are not accepted. So no step overwrites an
accepted status. -/
theorem Exclusive.preserves (exclusive : w.Exclusive order e)
    (injective : Function.Injective (Cell.hash : Cell H → H)) (sound : Sound w)
    (ledger : Ledger w) : w.Preserves e := by
  refine ⟨fun h accepted => ?_, exclusive.other⟩
  rintro (queried | ⟨hashes, told, ⟨t, listed, set, found, conflict, ne⟩ | removed⟩ |
    ⟨tx, fetched, rfl⟩)
  · exact exclusive.queried h queried accepted
  · have recorded : t ∈ w.accepted :=
      ledger.sent.subset (List.mem_append_right _ (accepting_posted told listed))
    have member := (ledger.held h).mp accepted
    have clash := (conflict_iff injective sound ledger.traced ne.symm (ledger.stored recorded)
      (ledger.stored member) found (ledger.seated h member)).mp conflict
    exact clash (ledger.apart t recorded h member ne.symm)
  · exact exclusive.progeny hashes told h removed accepted
  · exact (exclusive.fetched tx fetched).2 accepted

theorem takes_traced (injective : Function.Injective (Cell.hash : Cell H → H)) {added : Finset H}
    {rs : List (Sleet H × Tx H)} {s s' : Sleet H} (takes : s.Takes added rs s')
    (unspent : ∀ r ∈ rs, r.1.Insertable r.2 → r.1.conflictGraph.Unspent (.insertCell r.2.cell))
    (before : s.conflictGraph.Traced) :
    s'.conflictGraph.Traced ∧ ∀ h ∈ s.conflictGraph.cs, h ∈ s'.conflictGraph.cs := by
  induction takes with
  | done => exact ⟨before, fun _ => id⟩
  | aside step _ ih =>
    rcases step.graph with same | ⟨order, ids, grown⟩
    · rw [← same] at before ⊢
      exact ih unspent before
    · have next := (ConflictGraph.Effect.append order ids).traced trivial before
      rw [← grown] at next
      obtain ⟨after, seats⟩ := ih unspent next
      rw [grown] at seats
      exact ⟨after, seats⟩
  | receive left _ ih =>
    have rest := ih fun r hr => unspent r (List.mem_cons_of_mem _ hr)
    rcases Sleet.onReceiveTx_graph left with rfl | ⟨insertable, inserted⟩
    · exact rest before
    · have free := unspent _ List.mem_cons_self insertable
      have next : ConflictGraph.Traced _ ∧ _ := ConflictGraph.callAny_traced injective free before
        inserted
      obtain ⟨after, seats⟩ := rest next.1
      exact ⟨after, fun h known => seats h (next.2 h known)⟩

/-- The conflict graph stays traced, and what stays accepted keeps its conflict set. -/
theorem Move.traced (move : Move order w e w')
    (injective : Function.Injective (Cell.hash : Cell H → H)) (sound : Sound w)
    (exclusive : w.Exclusive order e) (before : w.sleet.conflictGraph.Traced) :
    w'.sleet.conflictGraph.Traced ∧ ∀ h, ¬ w.Overwrites e h → h ∈ w.sleet.conflictGraph.cs →
      h ∈ w'.sleet.conflictGraph.cs := by
  have retuned : w.sleet.conflictGraph.Retuned w'.sleet.conflictGraph → _ := fun same =>
    (⟨same.traced before, fun _ _ => same.mem_cs.mpr⟩ : w'.sleet.conflictGraph.Traced ∧ ∀ h,
      ¬ w.Overwrites e h → h ∈ w.sleet.conflictGraph.cs → h ∈ w'.sleet.conflictGraph.cs)
  cases move with
  | receives _ takes =>
    obtain ⟨after, seats⟩ := takes_traced injective takes exclusive.unspent before
    exact ⟨after, fun h _ => seats h⟩
  | complete _ handled =>
    exact retuned (Sleet.queryComplete_completed sound.linked handled).1.retuned
  | incomplete _ handled => exact retuned (Sleet.queryIncomplete_completed handled).retuned
  | @newAccepted hashes _ delivered handled =>
    obtain ⟨s₁, _, pruned, sweep, _⟩ := Sleet.newAccepted_sweep order sound.keyed handled
    rw [(Sleet.prune_some order pruned).2.1]
    refine ⟨sweep.calls.traced before, fun h kept known => sweep.sets.keeps h known fun swept => ?_⟩
    exact kept (Or.inr (Or.inl ⟨hashes, accepting_some.mpr delivered, swept⟩))
  | fetches _ eq =>
    rw [eq]
    exact ⟨before, fun _ _ => id⟩

omit [Blake3 H] in
theorem ripe_seated {s : Sleet H} (linked : s.dag.Linked) {root u : H} (ripe : s.Ripe root u)
    (undecided : s.knownTxs.status u ≠ some .accepted) :
    ∃ set, s.conflictGraph.cs.lookup u = some set := by
  obtain ⟨present, path⟩ := linked.mem_dfs.mp ripe.1
  have own := linked.self_mem_dfs (linked.ancestor_mem present path)
  rcases ripe.2 u own with accepted | ⟨_, _, set, found, _⟩
  · exact absurd accepted undecided
  · exact ⟨set, found⟩

/-- What becomes accepted shares no input with what is accepted, nor with what becomes
accepted in the same step. -/
theorem Exclusive.apart (exclusive : w.Exclusive order e)
    (injective : Function.Injective (Cell.hash : Cell H → H)) (sound : Sound w)
    (ledger : Ledger w) {root u : H} (passing : root ∈ w.passing e) (ripe : w.sleet.Ripe root u)
    (undecided : w.status u ≠ some .accepted) (stored : u ∈ w.sleet.knownTxs) :
    (∀ v ∈ w.accepted, Disjoint (w.spends u) (w.spends v)) ∧
      ∀ v ∈ w.sleet.knownTxs, w.sleet.Ripe root v → w.status v ≠ some .accepted → v ≠ u →
        Disjoint (w.spends u) (w.spends v) := by
  obtain ⟨set, found⟩ := ripe_seated sound.linked ripe undecided
  have alone := exclusive.alone root passing u ripe.1 ripe undecided set found
  -- a common input would make the other one a member of the conflict set
  refine ⟨fun v hv => ?_, fun v storedV ripeV undecidedV ne => ?_⟩
  · have decided := (ledger.held v).mpr hv
    have ne : u ≠ v := fun eq => undecided (eq ▸ decided)
    by_contra clash
    have member := (conflict_iff injective sound ledger.traced ne stored
      (ledger.stored hv) found (ledger.seated v hv)).mpr clash
    exact (alone v member ne.symm).1 decided
  · obtain ⟨_, there⟩ := ripe_seated sound.linked ripeV undecidedV
    by_contra clash
    have member := (conflict_iff injective sound ledger.traced ne.symm stored storedV
      found (Finmap.mem_of_lookup_eq_some there)).mpr clash
    exact (alone v member ne).2 ripeV

/-- What is accepted after a step was so before, or is recorded by the step. -/
theorem Move.held (move : Move order w e w') (sound : Sound w) (exclusive : w.Exclusive order e)
    (preserves : w.Preserves e) (ledger : Ledger w) {new : List H}
    (exactly : ∀ h, h ∈ new ↔ ∃ root ∈ w.passing e, w.sleet.Ripe root h ∧
      w.status h ≠ some .accepted) (h : H) :
    w'.status h = some .accepted ↔ h ∈ w.accepted ∨ h ∈ new := by
  constructor
  · intro current
    obtain ⟨tx, found, final⟩ := status_eq_some.mp current
    rcases move.accepted_cases sound found final with old | ⟨root, passing, _, ripe, undecided, _⟩ |
      ⟨fetched, _⟩
    · exact .inl ((ledger.held h).mp (status_eq_some.mpr ⟨tx, old, final⟩))
    · exact .inr ((exactly h).mpr ⟨root, passing, ripe, undecided⟩)
    · exact absurd final (exclusive.fetched tx fetched).1
  · rintro (old | member)
    · exact move.stays sound preserves ((ledger.held h).mpr old)
    · obtain ⟨root, passing, ripe, _⟩ := (exactly h).mp member
      have ne : h ≠ root := fun eq => exclusive.other root passing (eq ▸ ripe)
      obtain ⟨tx, _, marked⟩ := move.ripe_accepted sound passing ripe ne
      exact status_eq_some.mpr ⟨_, marked, rfl⟩

theorem Move.ledger (move : Move order w e w')
    (injective : Function.Injective (Cell.hash : Cell H → H)) (sound : Sound w)
    (exclusive : w.Exclusive order e) (ledger : Ledger w) : Ledger w' := by
  have preserves := exclusive.preserves injective sound ledger
  obtain ⟨new, accepted, nodup, known, exactly⟩ := move.recorded sound
  obtain ⟨sent, cells⟩ := move.sent sound ledger.sent
  obtain ⟨traced, seats⟩ := move.traced injective sound exclusive ledger.traced
  have fresh : ∀ u ∈ new, (∀ v ∈ w.accepted, Disjoint (w.spends u) (w.spends v)) ∧
      ∀ v ∈ new, v ≠ u → Disjoint (w.spends u) (w.spends v) := by
    intro u hu
    obtain ⟨root, passing, ripe, undecided⟩ := (exactly u).mp hu
    obtain ⟨old, together⟩ :=
      exclusive.apart injective sound ledger passing ripe undecided (known u hu)
    refine ⟨old, fun v hv ne => ?_⟩
    obtain ⟨root', passing', ripe', undecided'⟩ := (exactly v).mp hv
    obtain rfl : root = root' := Option.mem_unique passing passing'
    exact together v (known v hv) ripe' undecided' ne
  have stored : ∀ h ∈ w'.accepted, h ∈ w.sleet.knownTxs := by
    intro h member
    rw [accepted] at member
    rcases List.mem_append.mp member with old | member
    · exact ledger.stored old
    · exact known h member
  have same : ∀ h ∈ w'.accepted, w'.spends h = w.spends h := fun h member =>
    move.spends injective sound (stored h member)
  refine ⟨fun h => ?_, ?_, fun u hu v hv ne => ?_, sent, fun c hc => ?_, traced,
    fun h member => ?_⟩
  · rw [accepted, List.mem_append]
    exact move.held sound exclusive preserves ledger exactly h
  · rw [accepted]
    refine List.nodup_append.mpr ⟨ledger.nodup, nodup, ?_⟩
    rintro u old v hv rfl
    obtain ⟨_, _, _, undecided⟩ := (exactly u).mp hv
    exact undecided ((ledger.held u).mpr old)
  · rw [same u hu, same v hv]
    rw [accepted] at hu hv
    rcases List.mem_append.mp hu with hu | hu <;> rcases List.mem_append.mp hv with hv | hv
    · exact ledger.apart u hu v hv ne
    · exact ((fresh v hv).1 u hu).symm
    · exact (fresh u hu).1 v hv
    · exact (fresh u hu).2 v hv ne.symm
  · rcases cells c hc with old | ⟨consumed, there⟩
    · have recorded : c.hash ∈ w.accepted :=
        ledger.sent.subset (List.mem_append_left _ (List.mem_map_of_mem old))
      rw [move.spends injective sound (ledger.stored recorded), ledger.cells c old]
    · rw [move.spends injective sound there, consumed]
  · rw [accepted] at member
    rcases List.mem_append.mp member with old | member
    · exact seats h (preserves.kept h ((ledger.held h).mpr old)) (ledger.seated h old)
    · obtain ⟨root, passing, ripe, undecided⟩ := (exactly h).mp member
      obtain ⟨set, found⟩ := ripe_seated sound.linked ripe undecided
      refine seats h (fun overwritten => ?_) (Finmap.mem_of_lookup_eq_some found)
      exact exclusive.other root passing (overwrites_passing passing overwritten ▸ ripe)

/-- In a run whose steps are all exclusive, no two transactions that ever are accepted
share an input, and no input is sent to hail twice. -/
theorem no_double_spend (injective : Function.Injective (Cell.hash : Cell H → H))
    (order : HashOrder H) (id : Id) (ip : SocketAddr) (peers : List (Id × SocketAddr))
    (steps : List (Actor H × HashOrder H × Event H)) (w : Actor H)
    (run : Run step (started (.new order id ip peers)) steps w)
    (meets : Meets (fun w x => w.Exclusive x.1 x.2) steps) :
    (∀ v₁ ∈ states steps w, ∀ v₂ ∈ states steps w, ∀ h₁ h₂ tx₁ tx₂, h₁ ≠ h₂ →
      v₁.sleet.knownTxs.lookup h₁ = some tx₁ → tx₁.status = .accepted →
      v₂.sleet.knownTxs.lookup h₂ = some tx₂ → tx₂.status = .accepted →
        Disjoint tx₁.cell.consumed tx₂.cell.consumed) ∧
      w.hail.flatten.Pairwise fun c c' => Disjoint c.consumed c'.consumed := by
  obtain ⟨⟨_, ledger⟩, visited⟩ := run.relates _ meets (fun w => Sound w ∧ Ledger w) Grows
    ⟨.started order id ip peers, .started order id ip peers⟩ .refl (fun _ _ _ => .trans) (by
      rintro u ⟨o, e⟩ v ⟨sound, ledger⟩ exclusive taken
      have move := step_move taken
      exact ⟨⟨move.sound sound, move.ledger injective sound exclusive ledger⟩,
        move.grows injective sound⟩)
  -- what was accepted in any state is in the ledger of the last one
  have final : ∀ v ∈ states steps w, ∀ h tx, v.sleet.knownTxs.lookup h = some tx →
      tx.status = .accepted → h ∈ w.accepted ∧ w.spends h = tx.cell.consumed := by
    intro v hv h tx found accepted
    obtain ⟨⟨_, before⟩, grows⟩ := visited v hv
    have recorded := (before.held h).mp (status_eq_some.mpr ⟨tx, found, accepted⟩)
    refine ⟨grows.accepted recorded, ?_⟩
    rw [grows.spends h (before.stored recorded), spends_of_lookup found]
  refine ⟨?_, ledger.hail_apart⟩
  intro v₁ hv₁ v₂ hv₂ h₁ h₂ tx₁ tx₂ ne found₁ accepted₁ found₂ accepted₂
  obtain ⟨recorded₁, consumed₁⟩ := final v₁ hv₁ h₁ tx₁ found₁ accepted₁
  obtain ⟨recorded₂, consumed₂⟩ := final v₂ hv₂ h₂ tx₂ found₂ accepted₂
  rw [← consumed₁, ← consumed₂]
  exact ledger.apart h₁ recorded₁ h₂ recorded₂ ne

/-- A transfer is accepted and its counter goes on to the second threshold. Then
another transfer of the same coin takes the counter over when it is inserted, and is
accepted by the first query of a child. -/
theorem double_spend_final :
    ∃ (steps : List (Actor Digest × HashOrder Digest × Event Digest)) (w : Actor Digest),
      Run step sample steps w ∧
        (∃ v ∈ states steps w, ∃ h₁ h₂, h₁ ≠ h₂ ∧ v.status h₁ = some .accepted ∧
          v.status h₂ = some .accepted ∧ ¬ Disjoint (v.spends h₁) (v.spends h₂)) ∧
        ¬ w.hail.flatten.Pairwise fun c c' => Disjoint c.consumed c'.consumed := by
  let t := transfer [] 0
  let children := (List.range 19).map fun i => transfer [t] (i + 1)
  let u : Tx Digest := .new [] (pay [mint 0] 8)
  let d := transfer [u] 20
  let events := joins 21 :: (t :: children).map receive ++
    queries 1 40 true (t :: children.take 10) ++ [.deliver 30] ++
    queries 12 29 true (children.drop 10) ++ [receive u, receive d] ++ query 23 24 true d ++
    [.deliver 24]
  have found : (runSample events).any (fun r => decide
      ((∃ x ∈ r.1, t.hash ≠ u.hash ∧ x.1.status t.hash = some .accepted ∧
        x.1.status u.hash = some .accepted ∧
        ¬ Disjoint (x.1.spends t.hash) (x.1.spends u.hash)) ∧
      ¬ r.2.hail.flatten.Pairwise fun c c' => Disjoint c.consumed c'.consumed)) = true := by
    decide +kernel
  obtain ⟨steps, w, run, both⟩ := exec_any found
  obtain ⟨⟨x, member, clash⟩, twice⟩ := of_decide_eq_true both
  have visited : x.1 ∈ states steps w :=
    List.mem_append_left _ (List.mem_map_of_mem member)
  exact ⟨steps, w, run, ⟨x.1, visited, t.hash, u.hash, clash⟩, twice⟩

omit [Blake3 H] in
/-- Conflicts without children have no progeny to remove. -/
theorem childless_not_removes {s : Sleet H} {hashes : List H}
    (childless : ∀ t ∈ hashes, ∀ set ∈ s.conflictGraph.cs.lookup t, ∀ r ∈ set.conflicts, r ≠ t →
      s.dag.childSet r = ∅) (d : H) : ¬ s.Removes hashes d := by
  rintro ⟨r, ⟨t, listed, set, found, conflict, ne⟩, path⟩
  obtain ⟨c, edge, _⟩ := Relation.TransGen.head'_iff.mp path
  have member := DAG.mem_childSet.mpr edge
  simp [childless t listed set found r conflict ne] at member

/-- Two transfers of one coin: the first is accepted with its child and the other is
rejected. -/
theorem no_double_spend_rival :
    ∃ (steps : List (Actor Digest × HashOrder Digest × Event Digest)) (w : Actor Digest),
      Run step sample steps w ∧ w.hail.flatten.length = 2 ∧
        (∃ h, w.status h = some .rejected) ∧
        w.hail.flatten.Pairwise fun c c' => Disjoint c.consumed c'.consumed := by
  let t := transfer [] 0
  let u : Tx Digest := .new [] (pay [mint 0] 8)
  let v := transfer [t] 1
  let children := (List.range 18).map fun i => transfer [v] (i + 2)
  let events := joins 20 :: poll 1 true [t] ++ [receive u] ++ poll 4 true (v :: children) ++
    [.deliver 23]
  have found : (runSample events).any (fun r => decide (r.2.hail.flatten.length = 2 ∧
      r.2.status u.hash = some .rejected ∧ ∀ x ∈ r.1, x.1.fetched x.2.2 = none ∧
        (∀ h ∈ x.1.queried x.2.2, x.1.status h ≠ some .accepted) ∧
        (∀ hashes ∈ x.1.accepting x.2.2, ∀ h ∈ hashes,
          ∀ set ∈ x.1.sleet.conflictGraph.cs.lookup h,
            ∀ r ∈ set.conflicts, r ≠ h → x.1.sleet.dag.childSet r = ∅) ∧
        (∀ root ∈ x.1.passing x.2.2, ¬ x.1.sleet.Ripe root root) ∧
        (∀ root ∈ x.1.passing x.2.2, ∀ u ∈ x.1.sleet.dag.dfs root, x.1.sleet.Ripe root u →
          x.1.status u ≠ some .accepted → ∀ set ∈ x.1.sleet.conflictGraph.cs.lookup u,
            ∀ k ∈ set.conflicts, k ≠ u →
              x.1.status k ≠ some .accepted ∧ ¬ x.1.sleet.Ripe root k) ∧
        ∀ r ∈ x.1.receipts x.2.1 x.2.2,
          r.1.conflictGraph.Unspent (.insertCell r.2.cell))) = true := by
    decide +kernel
  obtain ⟨steps, w, run, both⟩ := exec_any found
  obtain ⟨two, rejected, guarded⟩ := of_decide_eq_true both
  have meets : Meets (fun w x => w.Exclusive x.1 x.2) steps := by
    intro x hx
    obtain ⟨nothing, queried, childless, other, alone, unspent⟩ := guarded x hx
    exact ⟨queried, fun hashes told h removed =>
      absurd removed (childless_not_removes (childless hashes told) h), other, alone,
      fun r hr _ => unspent r hr, fun tx stored => by simp [nothing] at stored⟩
  exact ⟨steps, w, run, two, ⟨u.hash, rejected⟩,
    (no_double_spend hash_injective _ _ _ _ steps w run meets).2⟩

end Subzero.Actor
