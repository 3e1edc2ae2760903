import Subzero.Graph.Operations
import Subzero.Graph.Removal
import Subzero.Sleet.Handlers

/-! What the handlers that receive transactions do to the state. They only add
pending transactions, in the place of none or of a removed one. -/
namespace Subzero.Sleet
variable {H : Type} [DecidableEq H] [Blake3 H]
variable {s s' : Sleet H} {tx : Tx H} {order : HashOrder H} {added : Finset H}

/-- Stored transactions that are not removed stay as they are, and what is new is
pending. -/
structure Admits (s s' : Sleet H) : Prop where
  keeps : ∀ h tx, s.knownTxs.lookup h = some tx → tx.status ≠ .removed →
    s'.knownTxs.lookup h = some tx
  adds : ∀ h tx, s'.knownTxs.lookup h = some tx →
    s.knownTxs.lookup h = some tx ∨ tx.status = .pending ∧ tx.hash = h
  known : ∀ h ∈ s.knownTxs, h ∈ s'.knownTxs
  linked : s.dag.Linked → s'.dag.Linked

theorem Admits.of_eq (txs : s'.knownTxs = s.knownTxs) (linked : s.dag.Linked → s'.dag.Linked) :
    Admits s s' :=
  ⟨fun _ _ found _ => txs ▸ found, fun _ _ found => Or.inl (txs ▸ found),
    fun _ member => txs ▸ member, linked⟩

theorem Admits.refl (s : Sleet H) : Admits s s := .of_eq rfl id

theorem Admits.trans {s₁ s₂ s₃ : Sleet H} (first : Admits s₁ s₂) (second : Admits s₂ s₃) :
    Admits s₁ s₃ where
  keeps h tx found alive := second.keeps h tx (first.keeps h tx found alive) alive
  adds h tx found := by
    rcases second.adds h tx found with old | new
    · exact first.adds h tx old
    · exact Or.inr new
  known h member := second.known h (first.known h member)
  linked := second.linked ∘ first.linked

/-- Every stored transaction is stored under its own hash. -/
def Keyed (s : Sleet H) : Prop := ∀ h tx, s.knownTxs.lookup h = some tx → tx.hash = h

theorem Admits.keyed (admits : Admits s s') (keyed : s.Keyed) : s'.Keyed := by
  intro h tx found
  rcases admits.adds h tx found with old | ⟨_, eq⟩
  · exact keyed h tx old
  · exact eq

omit [Blake3 H] in
@[simp] theorem accepted_iff (s : Sleet H) (h : H) :
    s.accepted h = true ↔ s.knownTxs.status h = some .accepted :=
  TxDb.isAcceptedTx_iff s.knownTxs h

omit [Blake3 H] in
/-- The parents that are not accepted are vertices of the DAG. -/
theorem hasParents_inside (parents : s.hasParents tx = true) :
    ∀ p ∈ s.removeAcceptedParents tx.parents, p ∈ s.dag.g := by
  intro p member
  obtain ⟨listed, undecided⟩ := List.mem_filter.mp member
  by_contra absent
  unfold hasParents DAG.hasVertices at parents
  have missing : p ∈ tx.parents.filter (· ∉ s.dag.g) :=
    List.mem_filter.mpr ⟨listed, by simpa using absent⟩
  simp only [List.ne_nil_of_mem missing, if_false] at parents
  have accepted := List.all_eq_true.mp parents p missing
  simp [accepted] at undecided

/-- A transaction is inserted if it is unknown or removed, and its parents are here. -/
structure Insertable (s : Sleet H) (tx : Tx H) : Prop where
  open_ : ∀ known, s.knownTxs.lookup tx.hash = some known → known.status = .removed
  parents : s.hasParents tx = true

/-- The ways to receive a transaction. Only an insertion that goes through both
graphs stores it. -/
inductive Receipt (order : HashOrder H) (s : Sleet H) (tx : Tx H) :
    Outcome (SleetError H) (Sleet H) Bool → Prop where
  | refused (e : SleetError H) : Receipt order s tx (.err e s)
  | known {stored : Tx H} : s.knownTxs.lookup tx.hash = some stored → stored.status ≠ .removed →
      Receipt order s tx (.ok false s)
  | conflicts {e : GraphError H} {cg : ConflictGraph H} : Insertable s tx →
      s.conflictGraph.insertCell order tx.cell = .err e cg →
      Receipt order s tx (.err (.graph e) { s with conflictGraph := cg })
  | vertex {e : GraphError H} {cg : ConflictGraph H} {d : DAG H} : Insertable s tx →
      s.conflictGraph.insertCell order tx.cell = .ok () cg →
      s.dag.insertVx tx.hash (s.removeAcceptedParents tx.parents) = .err e d →
      Receipt order s tx (.err (.graph e) { s with conflictGraph := cg, dag := d })
  | stored {cg : ConflictGraph H} {d : DAG H} : Insertable s tx →
      s.conflictGraph.insertCell order tx.cell = .ok () cg →
      s.dag.insertVx tx.hash (s.removeAcceptedParents tx.parents) = .ok () d →
      Receipt order s tx (.ok true { s with
        conflictGraph := cg
        dag := d
        knownTxs := s.knownTxs.insertTx { tx with status := .pending } })
  | panic : Receipt order s tx .panic

/-- An insertion panics in the conflict graph, fails in one of the graphs, or goes through. -/
theorem insert_cases (order : HashOrder H) (s : Sleet H) (tx : Tx H) :
    (s.conflictGraph.insertCell order tx.cell = .panic ∧ s.insert order tx = .panic) ∨
    (∃ e cg, s.conflictGraph.insertCell order tx.cell = .err e cg ∧
      s.insert order tx = .err (.graph e) { s with conflictGraph := cg }) ∨
    ∃ cg, s.conflictGraph.insertCell order tx.cell = .ok () cg ∧
      ((∃ d, s.dag.insertVx tx.hash (s.removeAcceptedParents tx.parents) = .ok () d ∧
        s.insert order tx = .ok () { s with conflictGraph := cg, dag := d }) ∨
      ∃ e d, s.dag.insertVx tx.hash (s.removeAcceptedParents tx.parents) = .err e d ∧
        s.insert order tx = .err (.graph e) { s with conflictGraph := cg, dag := d }) := by
  unfold insert
  cases conflict : s.conflictGraph.insertCell order tx.cell with
  | panic => exact .inl ⟨rfl, rfl⟩
  | err e cg => exact .inr (.inl ⟨e, cg, rfl, rfl⟩)
  | ok _ cg =>
    refine .inr (.inr ⟨cg, rfl, ?_⟩)
    cases vertex : s.dag.insertVx tx.hash (s.removeAcceptedParents tx.parents) with
    | panic => exact absurd vertex (DAG.insertVx_returns _ _ _)
    | ok _ d => exact .inl ⟨d, rfl, congrArg (Outcome.lift SleetError.graph _) vertex⟩
    | err e d => exact .inr ⟨e, d, rfl, congrArg (Outcome.lift SleetError.graph _) vertex⟩

theorem onReceiveTx_receipt (order : HashOrder H) (s : Sleet H) (tx : Tx H) :
    Receipt order s tx (s.onReceiveTx order tx) := by
  unfold onReceiveTx
  split
  · exact .refused _
  · split
    · rename_i fresh
      split
      · exact .refused _
      · rename_i parents
        have insertable : Insertable s tx := by
          refine ⟨fun known found => ?_, by simpa using parents⟩
          have present : tx.hash ∈ s.knownTxs := Finmap.mem_of_lookup_eq_some found
          simpa [TxDb.isKnownTx, present, TxDb.isRemovedTx, TxDb.checkStatus, found,
            unwrapOrFalse] using fresh
        rcases insert_cases order s { tx with status := .pending } with
          ⟨_, panics⟩ | ⟨e, cg, conflict, failed⟩ | ⟨cg, conflict, ⟨d, vertex, done⟩ |
            ⟨e, d, vertex, failed⟩⟩
        · simp only [panics]
          exact .panic
        · simp only [failed]
          exact .conflicts insertable conflict
        · simp only [done]
          exact .stored insertable conflict vertex
        · simp only [failed]
          exact .vertex insertable conflict vertex
    · rename_i stale
      cases found : s.knownTxs.lookup tx.hash with
      | none =>
        have absent : tx.hash ∉ s.knownTxs := Finmap.lookup_eq_none.mp found
        simp [TxDb.isKnownTx, absent] at stale
      | some stored =>
        refine .known found fun removed => stale ?_
        simp [TxDb.isRemovedTx, TxDb.checkStatus, found, unwrapOrFalse, removed]

theorem insertVx_linked {d : DAG H} (insertable : Insertable s tx)
    (left : (s.dag.insertVx tx.hash (s.removeAcceptedParents tx.parents)).state? = some d)
    (linked : s.dag.Linked) : d.Linked :=
  (DAG.insertVx_cases linked (hasParents_inside insertable.parents) left).1

theorem onReceiveTx_admits (left : (s.onReceiveTx order tx).state? = some s') : Admits s s' := by
  have receipt := onReceiveTx_receipt order s tx
  generalize s.onReceiveTx order tx = out at receipt left
  cases receipt with
  | refused e => cases left; exact .refl _
  | known found alive => cases left; exact .refl _
  | conflicts insertable conflict => cases left; exact .of_eq rfl id
  | vertex insertable conflict vertex =>
    cases left
    exact .of_eq rfl (insertVx_linked insertable (by rw [vertex]; rfl))
  | stored insertable conflict vertex =>
    cases left
    refine ⟨fun h known found alive => ?_, fun h known found => ?_,
      fun h member => Finmap.mem_insert.mpr (Or.inr member),
      insertVx_linked insertable (by rw [vertex]; rfl)⟩
    · have ne : h ≠ tx.hash := by
        rintro rfl
        exact alive (insertable.open_ known found)
      simpa [TxDb.insertTx, Tx.hash, HashMap.lookup_insert_ite, show h ≠ tx.cell.hash from ne]
        using found
    · rcases HashMap.lookup_insert_some found with ⟨eq, rfl⟩ | ⟨_, old⟩
      · exact Or.inr ⟨rfl, eq.symm⟩
      · exact Or.inl old
  | panic => cases left

theorem onReceiveTx_stores {tx tx' : Tx H} {h : H}
    (left : (s.onReceiveTx order tx).state? = some s') (found : s'.knownTxs.lookup h = some tx') :
    s.knownTxs.lookup h = some tx' ∨ Insertable s tx ∧ tx' = { tx with status := .pending } := by
  have receipt := onReceiveTx_receipt order s tx
  generalize s.onReceiveTx order tx = out at receipt left
  cases receipt with
  | refused e => cases left; exact Or.inl found
  | known _ _ => cases left; exact Or.inl found
  | conflicts _ _ => cases left; exact Or.inl found
  | vertex _ _ _ => cases left; exact Or.inl found
  | stored insertable conflict vertex =>
    cases left
    rcases HashMap.lookup_insert_some found with ⟨_, rfl⟩ | ⟨_, old⟩
    · exact Or.inr ⟨insertable, rfl⟩
    · exact Or.inl old
  | panic => cases left

/-- Receiving a transaction leaves the conflict graph as it is, or inserts its cell. -/
theorem onReceiveTx_graph (left : (s.onReceiveTx order tx).state? = some s') :
    s' = s ∨ Insertable s tx ∧
      s.conflictGraph.callAny (order, .insertCell tx.cell) = some s'.conflictGraph := by
  have receipt := onReceiveTx_receipt order s tx
  generalize s.onReceiveTx order tx = out at receipt left
  cases receipt with
  | refused e => cases left; exact Or.inl rfl
  | known found alive => cases left; exact Or.inl rfl
  | conflicts insertable conflict =>
    cases left
    exact Or.inr ⟨insertable, congrArg Outcome.state? conflict⟩
  | vertex insertable conflict vertex =>
    cases left
    exact Or.inr ⟨insertable, congrArg Outcome.state? conflict⟩
  | stored insertable conflict vertex =>
    cases left
    exact Or.inr ⟨insertable, congrArg Outcome.state? conflict⟩
  | panic => cases left

/-- Vertices are put into a DAG without edges, or get a chit. -/
def Bares (added : Finset H) : DAG H → DAG H → Prop :=
  Relation.ReflTransGen fun d d' => ∃ v ∈ added,
    (d.insertVx v []).state? = some d' ∨ (d.setChit v 1).state? = some d'

omit [Blake3 H] in
theorem bare_vertex {d d' : DAG H} {vx : H} (linked : d.Linked) (listed : vx ∈ added)
    (left : (d.insertVx vx []).state? = some d') :
    d'.Linked ∧ (∀ v ∈ d'.g, v ∈ d.g ∨ v ∈ added) ∧ ∀ v p, d'.Parent v p ↔ d.Parent v p := by
  obtain ⟨linked', _, ⟨_, same, _⟩ | ⟨absent, grown⟩⟩ := DAG.insertVx_cases linked (by simp) left
  · exact ⟨linked', fun v hv => Or.inl (same ▸ hv), fun v p => DAG.parent_congr same⟩
  · refine ⟨linked', fun v hv => ?_, fun v p => ?_⟩
    · rw [grown, Finmap.mem_insert] at hv
      exact hv.elim (fun eq => Or.inr (eq ▸ listed)) Or.inl
    · rw [DAG.parent_insert grown]
      split
      · rename_i eq
        subst eq
        exact ⟨fun edge => absurd edge List.not_mem_nil, fun edge => absurd edge.mem absent⟩
      · rfl

omit [Blake3 H] in
theorem Bares.edges {d d' : DAG H} (bares : Bares added d d') (linked : d.Linked) :
    d'.Linked ∧ (∀ v ∈ d'.g, v ∈ d.g ∨ v ∈ added) ∧ ∀ v p, d'.Parent v p ↔ d.Parent v p := by
  induction bares with
  | refl => exact ⟨linked, fun _ => Or.inl, fun _ _ => Iff.rfl⟩
  | tail _ round ih =>
    obtain ⟨linked₁, vertex₁, parent₁⟩ := ih
    obtain ⟨v, listed, left | left⟩ := round
    · obtain ⟨linked₂, vertex₂, parent₂⟩ := bare_vertex linked₁ listed left
      refine ⟨linked₂, fun v hv => ?_, fun v p => (parent₂ v p).trans (parent₁ v p)⟩
      exact (vertex₂ v hv).elim (vertex₁ v) Or.inr
    · obtain ⟨g, inv⟩ := DAG.setChit_edges left
      exact ⟨linked₁.of_edges g inv, g ▸ vertex₁, fun v p =>
        (DAG.parent_congr g).trans (parent₁ v p)⟩

/-- What a handler does besides receiving transactions. It may add ids to the conflict
graph, and vertices without edges to the DAG. -/
structure Aside (added : Finset H) (s s' : Sleet H) : Prop where
  txs : s'.knownTxs = s.knownTxs
  graph : s'.conflictGraph = s.conflictGraph ∨
    ∃ order ids, s'.conflictGraph = s.conflictGraph.append order ids
  bares : Bares added s.dag s'.dag

omit [Blake3 H] in
theorem Aside.dag (aside : Aside added s s') (linked : s.dag.Linked) :
    s'.dag.Linked ∧ (∀ v ∈ s'.dag.g, v ∈ s.dag.g ∨ v ∈ added) ∧
      ∀ v p, s'.dag.Parent v p ↔ s.dag.Parent v p := aside.bares.edges linked

/-- Transactions are received one by one, each in the state that is recorded with it. -/
inductive Takes (added : Finset H) : Sleet H → List (Sleet H × Tx H) → Sleet H → Prop where
  | done (s : Sleet H) : Takes added s [] s
  | aside {s s₁ s₂ : Sleet H} {rs : List (Sleet H × Tx H)} : Aside added s s₁ →
      Takes added s₁ rs s₂ → Takes added s rs s₂
  | receive {order : HashOrder H} {tx : Tx H} {s s₁ s₂ : Sleet H} {rs : List (Sleet H × Tx H)} :
      (s.onReceiveTx order tx).state? = some s₁ → Takes added s₁ rs s₂ →
      Takes added s ((s, tx) :: rs) s₂

/-- The transactions of a list, each with the state in which it is received. -/
def receipts (order : HashOrder H) : List (Tx H) → Sleet H → List (Sleet H × Tx H)
  | [], _ => []
  | tx :: rest, s =>
    (s, tx) :: match (s.onReceiveTx order tx).state? with
      | some s => receipts order rest s
      | none => []

section Takes
variable {added : Finset H} {order : HashOrder H} {s s' : Sleet H}

omit [Blake3 H] in
theorem Aside.of_eq (txs : s'.knownTxs = s.knownTxs) (graph : s'.conflictGraph = s.conflictGraph)
    (dag : s'.dag = s.dag) : Aside added s s' :=
  ⟨txs, Or.inl graph, dag ▸ .refl⟩

theorem Takes.of_aside (aside : Aside added s s') : Takes added s [] s' := .aside aside (.done _)

theorem Takes.append {s₁ : Sleet H} {rs : List (Sleet H × Tx H)} (first : Takes added s rs s₁)
    (second : Takes added s₁ [] s') : Takes added s rs s' := by
  induction first with
  | done => exact second
  | aside step _ ih => exact .aside step (ih second)
  | receive left _ ih => exact .receive left (ih second)

theorem Takes.admits {rs : List (Sleet H × Tx H)} (takes : Takes added s rs s') : Admits s s' := by
  induction takes with
  | done => exact .refl _
  | aside step _ ih => exact (Admits.of_eq step.txs fun linked => (step.dag linked).1).trans ih
  | receive left _ ih => exact (onReceiveTx_admits left).trans ih

theorem Takes.cons {s₁ : Sleet H} {txs : List (Tx H)}
    (left : (s.onReceiveTx order tx).state? = some s₁)
    (rest : Takes added s₁ (receipts order txs s₁) s') :
    Takes added s (receipts order (tx :: txs) s) s' := by
  rw [receipts, left]
  exact .receive left rest

theorem generateTx_takes {cell : Cell H} {new : Bool}
    (done : s.generateTx order cell = some (new, tx, s')) :
    ∃ parents, s.selectParents order NPARENTS = .ok parents ∧
      Takes added s [(s, .new parents cell)] s' := by
  unfold generateTx at done
  split at done
  · cases done
  · rename_i parents selected
    refine ⟨parents, selected, ?_⟩
    have takes : ∀ s₁, (s.onReceiveTx order (.new parents cell)).state? = some s₁ →
        Takes added s [(s, .new parents cell)] s₁ := fun s₁ left => .receive left (.done _)
    simp only at done
    split at done
    · rename_i eq
      cases done
      exact takes _ (by rw [eq]; rfl)
    · rename_i eq
      cases done
      exact takes _ (by rw [eq]; rfl)
    · cases done

theorem queryTx_takes {new : Bool} {reply : Reply}
    (done : s.queryTx order tx = some (new, reply, s')) : Takes added s [(s, tx)] s' := by
  unfold queryTx at done
  split at done
  · rename_i s₁ eq
    obtain ⟨_, _, h⟩ := Option.map_eq_some_iff.mp done
    cases h
    exact .receive (by rw [eq]; rfl) (.done _)
  · rename_i s₁ eq
    cases done
    have left : (s.onReceiveTx order tx).state? = some s₁ := by rw [eq]; rfl
    exact .receive left (.of_aside (.of_eq rfl rfl rfl))
  · rename_i eq
    cases done
    exact .receive (by rw [eq]; rfl) (.done _)
  · cases done

/-- The rest is received in the state that the first transaction leaves. -/
theorem receiveAncestors_cons {txs : List (Tx H)} :
    (∃ fresh, receiveAncestors order (tx :: txs) s = some (fresh, s')) ↔
      ∃ s₁, (s.onReceiveTx order tx).state? = some s₁ ∧
        ∃ fresh, receiveAncestors order txs s₁ = some (fresh, s') := by
  rw [receiveAncestors]
  cases s.onReceiveTx order tx <;> simp [Outcome.state?]

theorem receiveAncestors_takes {txs : List (Tx H)} {fresh : List (Tx H)}
    (done : receiveAncestors order txs s = some (fresh, s')) :
    Takes added s (receipts order txs s) s' := by
  induction txs generalizing s fresh with
  | nil => cases done; exact .done _
  | cons tx txs ih =>
    obtain ⟨s₁, left, _, rest⟩ := receiveAncestors_cons.mp ⟨fresh, done⟩
    exact .cons left (ih rest)

end Takes

omit [DecidableEq H] in
@[simp] theorem Checked.answer_sleet (c : Checked H) (p : Pending H) (outcome : Bool) :
    (c.answer p outcome).sleet = c.sleet := by
  unfold Checked.answer
  split <;> rfl

theorem onReceiveTx_missing (order : HashOrder H) (missing : s.hasParents tx = false) :
    (s.onReceiveTx order tx).state? = some s := by
  unfold onReceiveTx
  split
  · rfl
  · split
    · simp [missing]
    · rfl

theorem checkRound_receives {c c' : Checked H} {p : Pending H}
    (done : checkRound order c p = some c') :
    (c.sleet.onReceiveTx order p.tx).state? = some c'.sleet := by
  unfold checkRound at done
  split at done
  · split at done
    · rename_i s₁ eq
      obtain ⟨_, _, rfl⟩ := Option.map_eq_some_iff.mp done
      rw [eq]
      simp
    · rename_i s₁ eq
      cases done
      rw [eq]
      simp
    · cases done
  · rename_i missing
    split at done <;> cases done <;> exact onReceiveTx_missing order (by simpa using missing)

theorem checkLoop_takes {ps : List (Pending H)} {c c' : Checked H}
    (done : ps.foldlM (checkRound order) c = some c') :
    Takes added c.sleet (receipts order (ps.map Pending.tx) c.sleet) c'.sleet := by
  induction ps generalizing c with
  | nil => cases done; exact .done _
  | cons p ps ih =>
    obtain ⟨c₁, first, rest⟩ := foldlM_cons_some.mp done
    exact .cons (checkRound_receives first) (ih rest)

theorem checkPending_takes {c : Checked H} (done : s.checkPending order = some c) :
    Takes added s (receipts order (s.pendingQueries.reverse.map Pending.tx)
      { s with pendingQueries := [] }) c.sleet := by
  obtain ⟨c₁, loop, rfl⟩ := Option.map_eq_some_iff.mp done
  have start : Aside added s { s with pendingQueries := [] } := .of_eq rfl rfl rfl
  have received : Takes added { s with pendingQueries := [] } (receipts order
      (s.pendingQueries.reverse.map Pending.tx) { s with pendingQueries := [] }) c₁.sleet :=
    checkLoop_takes loop
  exact .aside start (received.append (.of_aside (.of_eq rfl rfl rfl)))

end Subzero.Sleet
