import Subzero.Graph.Mutations
import Subzero.Graph.Refusal
import Subzero.Sleet.Accepted
import Subzero.Sleet.Sample

/-! Removed transactions that are received again. A removal takes the cell out of the
conflict graph and the vertex out of the DAG, but the chit of the vertex stays, and a chit
of one stops the next insertion when the vertex and the cell are back already. -/
namespace Subzero
variable {H : Type} [DecidableEq H] [Blake3 H]
variable {order : HashOrder H} {s s' : Sleet H}

namespace Sleet
variable {s s' : Sleet H} {tx : Tx H}

omit [Blake3 H] in
theorem hasParents_iff : s.hasParents tx = true ↔
    ∀ p ∈ tx.parents, p ∈ s.dag.g ∨ s.knownTxs.status p = some .accepted := by
  constructor
  · intro parents p listed
    by_cases accepted : s.accepted p = true
    · exact .inr ((accepted_iff s p).mp accepted)
    · refine .inl (hasParents_inside parents p (List.mem_filter.mpr ⟨listed, ?_⟩))
      simpa only [Bool.not_eq_true', Bool.not_eq_true] using accepted
  · intro parents
    unfold hasParents DAG.hasVertices
    simp only
    split
    · rfl
    · rename_i missing absent
      split at absent
      · contradiction
      · cases absent
        rw [List.all_eq_true]
        intro p member
        obtain ⟨listed, outside⟩ := List.mem_filter.mp member
        have inside := (parents p listed).resolve_left (by simpa using outside)
        exact (accepted_iff s p).mpr inside

/-- A transaction is unknown or removed, and so an insertion of it is tried. -/
def Lacks (s : Sleet H) (tx : Tx H) : Prop :=
  ∀ stored ∈ s.knownTxs.lookup tx.hash, stored.status = .removed

instance (s : Sleet H) (tx : Tx H) : Decidable (s.Lacks tx) :=
  inferInstanceAs (Decidable (∀ stored ∈ s.knownTxs.lookup tx.hash, _))

theorem lacks_iff : s.Lacks tx ↔ (!s.knownTxs.isKnownTx tx.hash ||
    unwrapOrFalse (s.knownTxs.isRemovedTx tx.hash)) = true := by
  cases found : s.knownTxs.lookup tx.hash with
  | none => simp [Lacks, found, TxDb.isKnownTx, Finmap.lookup_eq_none.mp found]
  | some stored =>
    have known : tx.hash ∈ s.knownTxs := Finmap.mem_of_lookup_eq_some found
    simp [Lacks, found, TxDb.isKnownTx, known, TxDb.isRemovedTx, TxDb.checkStatus, unwrapOrFalse]

/-- A transaction that is tried goes into the graphs if its parents are here. -/
theorem onReceiveTx_tried (order : HashOrder H) (transfer : hasCoinbaseOutput tx.cell = false)
    (lacks : s.Lacks tx) : s.onReceiveTx order tx =
      if s.hasParents tx then
        (s.insert order { tx with status := .pending }).bind fun _ s =>
          .ok true { s with knownTxs := s.knownTxs.insertTx { tx with status := .pending } }
      else .err .missingAncestry s := by
  simp only [onReceiveTx, transfer, lacks_iff.mp lacks, Bool.false_eq_true, if_false, if_true]
  cases s.hasParents tx <;> rfl

/-- Nothing stands in the way of an insertion into the two graphs. -/
structure Clear (s : Sleet H) (tx : Tx H) : Prop where
  transfer : hasCoinbaseOutput tx.cell = false
  cell : tx.hash ∉ s.conflictGraph.cells
  conflicts : ∀ k ∈ s.conflictGraph.conflictsOf tx.cell, k ∈ s.conflictGraph.cs
  vertex : tx.hash ∉ s.dag.g
  chit : s.dag.chits.lookup tx.hash ≠ some 1

instance (s : Sleet H) (tx : Tx H) : Decidable (s.Clear tx) :=
  decidable_of_iff (hasCoinbaseOutput tx.cell = false ∧ tx.hash ∉ s.conflictGraph.cells ∧
      (∀ k ∈ s.conflictGraph.conflictsOf tx.cell, k ∈ s.conflictGraph.cs) ∧
      tx.hash ∉ s.dag.g ∧ s.dag.chits.lookup tx.hash ≠ some 1)
    ⟨fun h => ⟨h.1, h.2.1, h.2.2.1, h.2.2.2.1, h.2.2.2.2⟩,
      fun h => ⟨h.transfer, h.cell, h.conflicts, h.vertex, h.chit⟩⟩

/-- The transaction was unknown or removed, and it is pending now: in the conflict graph,
and in the DAG with a chit of zero, below those of its parents that are not accepted. -/
structure Entered (s : Sleet H) (tx : Tx H) (s' : Sleet H) : Prop where
  status : s'.knownTxs.status tx.hash = some .pending
  cell : s'.conflictGraph.cells.lookup tx.hash = some tx.cell
  seated : tx.hash ∈ s'.conflictGraph.cs
  parents : s'.dag.g.lookup tx.hash =
    some (tx.parents.filter fun p => s.knownTxs.status p ≠ some .accepted)
  chit : s'.dag.getChit tx.hash = .ok 0

omit [Blake3 H] in
theorem removeAcceptedParents_eq (s : Sleet H) (parents : List H) :
    s.removeAcceptedParents parents =
      parents.filter fun p => s.knownTxs.status p ≠ some .accepted := by
  refine List.filter_congr fun p _ => ?_
  rw [Bool.eq_iff_iff, decide_eq_true_iff, ne_eq, ← accepted_iff, Bool.not_eq_true',
    Bool.not_eq_true]

/-- A transaction that is new goes into both graphs. -/
theorem onReceiveTx_entered (enrolled : s.conflictGraph.Enrolled)
    (received : s.onReceiveTx order tx = .ok true s') : Entered s tx s' := by
  have receipt := onReceiveTx_receipt order s tx
  rw [received] at receipt
  cases receipt with
  | @stored cg d insertable conflict vertex =>
    have inserted := DAG.insertVx_inserted vertex
    have ins := enrolled.inserted conflict
    constructor
    · simp [TxDb.status, TxDb.insertTx, Tx.hash]
    · exact (ins.cells_lookup tx.cell.hash).trans (if_pos rfl)
    · exact ins.mem_cs.mpr (.inl rfl)
    · rw [← removeAcceptedParents_eq]
      simp only [inserted.g, Finmap.lookup_insert]
    · simp only [DAG.getChit, inserted.chits, Finmap.lookup_insert]

theorem Clear.of_received (enrolled : s.conflictGraph.Enrolled)
    (received : s.onReceiveTx order tx = .ok true s') :
    s.Clear tx ∧ ∀ id ∈ tx.cell.consumed, id ∈ s.conflictGraph.vertices := by
  have transfer : hasCoinbaseOutput tx.cell = false := by
    unfold onReceiveTx at received
    split at received
    · contradiction
    · rename_i transfer
      exact Bool.eq_false_of_not_eq_true transfer
  have receipt := onReceiveTx_receipt order s tx
  rw [received] at receipt
  cases receipt with
  | @stored cg d insertable conflict vertex =>
    obtain ⟨cell, known, conflicts⟩ :=
      (enrolled.insertCell_ok_iff order tx.cell).mp ⟨cg, conflict⟩
    have inserted := DAG.insertVx_inserted vertex
    exact ⟨⟨transfer, cell, conflicts, inserted.fresh, inserted.unchitted⟩, known⟩

/-- A transaction with nothing in its way is new, if its parents and its inputs are here. -/
theorem Clear.receive (clear : s.Clear tx) (order : HashOrder H) (linked : s.dag.Linked)
    (enrolled : s.conflictGraph.Enrolled)
    (lacks : s.Lacks tx) (parents : s.hasParents tx = true)
    (known : ∀ id ∈ tx.cell.consumed, id ∈ s.conflictGraph.vertices) :
    ∃ cg d, s.conflictGraph.insertCell order tx.cell = .ok () cg ∧
      s.dag.insertVx tx.hash (s.removeAcceptedParents tx.parents) = .ok () d ∧
      s.onReceiveTx order tx = .ok true { s with
        conflictGraph := cg
        dag := d
        knownTxs := s.knownTxs.insertTx { tx with status := .pending } } := by
  obtain ⟨cg, conflict⟩ := (enrolled.insertCell_ok_iff order tx.cell).mpr
    ⟨clear.cell, known, clear.conflicts⟩
  have entries : ∀ p ∈ s.removeAcceptedParents tx.parents,
      p ∈ DAG.withEntry tx.hash s.dag.inv := by
    intro p listed
    exact DAG.mem_withEntry.mpr (.inr (linked.entry p (hasParents_inside parents p listed)))
  obtain ⟨d, vertex⟩ := DAG.insertVx_succeeds entries clear.vertex clear.chit
  refine ⟨cg, d, conflict, vertex, ?_⟩
  have lifted : (s.insert order { tx with status := .pending }) =
      .ok () { s with conflictGraph := cg, dag := d } := by
    unfold insert
    rw [conflict]
    simp only [Outcome.lift, Outcome.bind_ok]
    exact congrArg (Outcome.lift SleetError.graph _) vertex
  rw [onReceiveTx_tried order clear.transfer lacks, if_pos parents, lifted, Outcome.bind_ok]

theorem onReceiveTx_enrolled {tx : Tx H} {s s' : Sleet H}
    (left : (s.onReceiveTx order tx).state? = some s') (enrolled : s.conflictGraph.Enrolled) :
    s'.conflictGraph.Enrolled := by
  rcases onReceiveTx_graph left with rfl | ⟨_, inserted⟩
  · exact enrolled
  · exact enrolled.insertCell inserted

end Sleet

namespace Actor
variable {w w' : Actor H}

theorem takes_enrolled {added : Finset H} {rs : List (Sleet H × Tx H)} (takes : s.Takes added rs s')
    (enrolled : s.conflictGraph.Enrolled) : s'.conflictGraph.Enrolled := by
  induction takes with
  | done => exact enrolled
  | aside step _ ih =>
    apply ih
    rcases step.graph with same | ⟨order, ids, grown⟩
    · exact same ▸ enrolled
    · rw [grown]
      exact enrolled
  | receive left _ ih => exact ih (Sleet.onReceiveTx_enrolled left enrolled)

omit [Blake3 H] in
theorem failQuery_order {hash : H} (done : s.failQuery hash = some s') :
    s'.conflictGraph.insertionOrder = s.conflictGraph.insertionOrder := by
  obtain ⟨cs, rfl⟩ := Sleet.failQuery_some done
  rfl

theorem passQuery_order {tx : Tx H} {new : List H} (linked : s.dag.Linked)
    (done : s.passQuery tx = some (new, s')) :
    s'.conflictGraph.insertionOrder = s.conflictGraph.insertionOrder := by
  unfold Sleet.passQuery at done
  split at done
  · contradiction
  · rename_i d chit
    obtain ⟨g, inv⟩ := DAG.setChit_edges (congrArg Outcome.state? (Outcome.unwrap_eq_some.mp chit))
    have voted : d.Linked := linked.of_edges g inv
    split at done
    · contradiction
    · rename_i s₁ updated
      obtain ⟨cs, rfl, _⟩ := Sleet.updateLoop_ok (voted.dfs_nodup tx.hash)
        (Outcome.unwrap_eq_some.mp updated)
      split at done
      · contradiction
      · obtain ⟨marked, _⟩ := Sleet.computeAcceptedTxs_some voted done
        rw [marked.conflictGraph]
        rfl

/-- Queries do not touch the order in which the cells were inserted. -/
theorem queryComplete_order {tx : Tx H} {acks : List (Response H)} {new : List H}
    (linked : s.dag.Linked) (done : s.queryComplete tx acks = some (new, s')) :
    s'.conflictGraph.insertionOrder = s.conflictGraph.insertionOrder := by
  unfold Sleet.queryComplete at done
  split at done
  · contradiction
  · split at done
    · obtain ⟨⟨new₁, s₁⟩, passed, rest⟩ := Option.bind_eq_some_iff.mp done
      obtain ⟨s₂, marked, eq⟩ := Option.map_eq_some_iff.mp rest
      cases eq
      rw [(Sleet.markQueried_some marked).2.2.1]
      exact passQuery_order linked passed
    · obtain ⟨s₁, failed, rest⟩ := Option.bind_eq_some_iff.mp done
      obtain ⟨s₂, marked, eq⟩ := Option.map_eq_some_iff.mp rest
      cases eq
      rw [(Sleet.markQueried_some marked).2.2.1]
      exact failQuery_order failed

theorem Move.enrolled {e : Event H} (move : Move order w e w') (sound : Sound w)
    (enrolled : w.sleet.conflictGraph.Enrolled) : w'.sleet.conflictGraph.Enrolled := by
  cases move with
  | receives _ takes => exact takes_enrolled takes enrolled
  | complete _ completed =>
    exact enrolled.retuned (Sleet.queryComplete_completed sound.linked completed).1.retuned
      (queryComplete_order sound.linked completed)
  | incomplete _ completed =>
    refine enrolled.retuned (Sleet.queryIncomplete_completed completed).retuned ?_
    obtain ⟨s₁, failed, marked⟩ := Option.bind_eq_some_iff.mp completed
    rw [(Sleet.markQueried_some marked).2.2.1]
    exact failQuery_order failed
  | newAccepted _ handled =>
    obtain ⟨s₁, _, pruned, sweep, _⟩ := Sleet.newAccepted_sweep _ sound.keyed handled
    rw [(Sleet.prune_some _ pruned).2.1]
    exact sweep.calls.enrolled enrolled
  | fetches _ eq =>
    rw [eq]
    exact enrolled

theorem enrolled_run {id : Id} {ip : SocketAddr} {peers : List (Id × SocketAddr)}
    {steps : List (Actor H × HashOrder H × Event H)}
    (run : Run step (Actor.started (.new order id ip peers)) steps w) :
    w.sleet.conflictGraph.Enrolled := by
  refine (run.invariant (fun _ _ => True) (fun _ _ => trivial)
    (fun w => Sound w ∧ w.sleet.conflictGraph.Enrolled)
    ⟨.started order id ip peers, .new order ∅⟩ ?_).2
  rintro u ⟨o, e⟩ v ⟨sound, enrolled⟩ _ taken
  have move := step_move taken
  exact ⟨move.sound sound, move.enrolled sound enrolled⟩

/-- A removed transaction whose inputs and parents are here is pending again after it is
received, exactly if nothing stands in its way. -/
theorem removed_received_again (order : HashOrder H) (id : Id) (ip : SocketAddr)
    (peers : List (Id × SocketAddr)) (steps : List (Actor H × HashOrder H × Event H))
    (run : Run step (started (.new order id ip peers)) steps w) (order' : HashOrder H)
    (tx : Tx H) (removed : w.sleet.knownTxs.status tx.hash = some .removed)
    (known : ∀ id ∈ tx.cell.consumed, id ∈ w.sleet.conflictGraph.vertices)
    (parents : ∀ p ∈ tx.parents, p ∈ w.sleet.dag.g ∨ w.sleet.knownTxs.status p = some .accepted) :
    (∃ s, w.sleet.onReceiveTx order' tx = .ok true s ∧ w.sleet.Entered tx s) ↔
      w.sleet.Clear tx := by
  have enrolled := enrolled_run run
  constructor
  · rintro ⟨s, received, _⟩
    exact (Sleet.Clear.of_received enrolled received).1
  · intro clear
    have open_ : ∀ stored, w.sleet.knownTxs.lookup tx.hash = some stored →
        stored.status = .removed := by
      intro stored found
      simpa [TxDb.status, found] using removed
    obtain ⟨cg, d, _, _, received⟩ := clear.receive order' (Sound.run run).linked enrolled open_
      (Sleet.hasParents_iff.mpr parents) known
    exact ⟨_, received, Sleet.onReceiveTx_entered enrolled received⟩

/-- Two transfers of one coin. The second has a child and a grandchild, which are removed
when it is rejected; then the child is received again without its parent. -/
def rivalHistory (polled : Bool) : List (Event Digest) :=
  let t := transfer [] 0
  let u : Tx Digest := .new [] (pay [mint 0] 8)
  let v := transfer [u] 1
  let x := transfer [v] 2
  let y := transfer [t] 3
  let children := (List.range 18).map fun i => transfer [y] (i + 4)
  let n := if polled then 7 else 8
  joins 22 :: poll 1 true [t] ++ [receive u, receive v] ++
    (if polled then poll 6 true [x] else [receive x]) ++ poll n true (y :: children) ++
    [.deliver (n + 19), receive (transfer [] 1)]

/-- The grandchild as it is stored. -/
def grandchild : Tx Digest :=
  { transfer [transfer [.new [] (pay [mint 0] 8)] 1] 2 with status := .removed }

/-- A query of the grandchild got the votes before it was removed. When it is received
again its old chit stops the insertion: it is in both graphs, and still counts as removed. -/
theorem removed_chit_refused :
    ∃ (steps : List (Actor Digest × HashOrder Digest × Event Digest)) (w : Actor Digest)
      (s : Sleet Digest), Run step sample steps w ∧
      w.sleet.knownTxs.lookup grandchild.hash = some grandchild ∧ grandchild.status = .removed ∧
      (∀ id ∈ grandchild.cell.consumed, id ∈ w.sleet.conflictGraph.vertices) ∧
      (∀ p ∈ grandchild.parents, p ∈ w.sleet.dag.g) ∧
      w.sleet.onReceiveTx ascendingOrder grandchild = .err (.graph .chitReplace) s ∧
      s.knownTxs.status grandchild.hash = some .removed ∧ grandchild.hash ∈ s.dag.g ∧
      grandchild.hash ∈ s.conflictGraph.cs := by
  have found : (runSample (rivalHistory true)).any (fun r => decide (
      r.2.sleet.knownTxs.lookup grandchild.hash = some grandchild ∧
      (∀ id ∈ grandchild.cell.consumed, id ∈ r.2.sleet.conflictGraph.vertices) ∧
      (∀ p ∈ grandchild.parents, p ∈ r.2.sleet.dag.g)) &&
      (r.2.sleet.onReceiveTx ascendingOrder grandchild).error?.any fun q =>
        decide (q.1 = .graph .chitReplace ∧ q.2.knownTxs.status grandchild.hash = some .removed ∧
          grandchild.hash ∈ q.2.dag.g ∧ grandchild.hash ∈ q.2.conflictGraph.cs)) = true := by
    decide +kernel
  obtain ⟨steps, w, run, both⟩ := exec_any found
  rw [Bool.and_eq_true] at both
  obtain ⟨before, refused⟩ := both
  obtain ⟨stored, known, parents⟩ := of_decide_eq_true before
  obtain ⟨⟨e, s⟩, failed, facts⟩ := (Option.any_eq_true _ _).mp refused
  obtain ⟨rfl, status, vertex, seated⟩ := of_decide_eq_true facts
  exact ⟨steps, w, s, run, stored, rfl, known, parents, Outcome.error?_eq_some.mp failed, status,
    vertex, seated⟩

/-- The grandchild was not queried before it was removed. -/
theorem removed_received_again_unqueried :
    ∃ (steps : List (Actor Digest × HashOrder Digest × Event Digest)) (w : Actor Digest),
      Run step sample steps w ∧ w.sleet.knownTxs.status grandchild.hash = some .removed ∧
      ∃ s, w.sleet.onReceiveTx ascendingOrder grandchild = .ok true s ∧
        w.sleet.Entered grandchild s := by
  have found : (runSample (rivalHistory false)).any (fun r => decide (
      r.2.sleet.knownTxs.status grandchild.hash = some .removed ∧
      (∀ id ∈ grandchild.cell.consumed, id ∈ r.2.sleet.conflictGraph.vertices) ∧
      (∀ p ∈ grandchild.parents, p ∈ r.2.sleet.dag.g ∨
        r.2.sleet.knownTxs.status p = some .accepted) ∧ r.2.sleet.Clear grandchild)) = true := by
    decide +kernel
  obtain ⟨steps, w, run, all⟩ := exec_any found
  obtain ⟨removed, known, parents, clear⟩ := of_decide_eq_true all
  exact ⟨steps, w, run, removed,
    (removed_received_again _ _ _ _ steps run ascendingOrder grandchild removed known parents).mpr
      clear⟩

end Actor
end Subzero
