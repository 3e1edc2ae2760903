import Subzero.Graph.TopologicalSort
import Subzero.Sleet.Reissue

/-! The exchange of ancestors between two nodes. A node answers from its own DAG, whose edges
leave out the parents that it had accepted, while the other node checks all the declared
parents. The answer is enough if the other node has what the answer leaves out. -/
namespace Subzero
variable {H : Type} [DecidableEq H] [Blake3 H]

namespace Sleet

/-- `Handler<GetTxAncestors>`; `none` is a panic, or a sort that needs more fuel. -/
def getTxAncestors (order : HashOrder H) (fuel : Nat) (s : Sleet H) (txHash : H) :
    Option (List (Tx H)) :=
  (s.dag.getAncestors fuel order.hashes txHash).bind fun hashes =>
    hashes.mapM fun hash => (s.knownTxs.getTx hash).toOption

/-- A transaction can be the parent of one that is received. -/
def Has (s : Sleet H) (h : H) : Prop := h ∈ s.dag.g ∨ s.knownTxs.status h = some .accepted

instance (s : Sleet H) (h : H) : Decidable (s.Has h) := inferInstanceAs (Decidable (_ ∨ _))

/-- What comes of the transactions that a node receives: the hashes whose insertion is tried,
and the transactions that are taken in. -/
structure Intake (H : Type) where
  tried : List H
  taken : List (Tx H)

/-- Every declared parent is here or was taken in. -/
def Supplied (s : Sleet H) (i : Intake H) (tx : Tx H) : Prop :=
  ∀ p ∈ tx.parents, s.Has p ∨ ∃ t ∈ i.taken, t.hash = p

/-- The cell is new, and its inputs are known or produced by what was taken in. -/
def Sourced (s : Sleet H) (i : Intake H) (tx : Tx H) : Prop :=
  tx.hash ∉ s.conflictGraph.cells ∧ ∀ id ∈ tx.cell.consumed,
    id ∈ s.conflictGraph.vertices ∨ ∃ t ∈ i.taken, id ∈ t.cell.produced

instance (s : Sleet H) (i : Intake H) (tx : Tx H) : Decidable (s.Supplied i tx) :=
  inferInstanceAs (Decidable (∀ p ∈ tx.parents, _))

instance (s : Sleet H) (i : Intake H) (tx : Tx H) : Decidable (s.Sourced i tx) :=
  inferInstanceAs (Decidable (_ ∧ ∀ id ∈ tx.cell.consumed, _))

/-- One more transaction, told by the state `s` before all of them. A second try is refused. -/
def Intake.receive (s : Sleet H) (i : Intake H) (tx : Tx H) : Intake H :=
  if tx.hash ∉ i.tried ∧ hasCoinbaseOutput tx.cell = false ∧ s.Lacks tx ∧ s.Supplied i tx then
    ⟨tx.hash :: i.tried, if s.Sourced i tx then tx :: i.taken else i.taken⟩
  else i

/-- Each of the transactions that the node lacks meets a condition at its turn. -/
def AtTurns (s : Sleet H) (P : Intake H → Tx H → Prop) : Intake H → List (Tx H) → Prop
  | _, [] => True
  | i, u :: rest => (hasCoinbaseOutput u.cell = false → s.Lacks u → P i u) ∧
      AtTurns s P (i.receive s u) rest

instance decidableAtTurns (s : Sleet H) (P : Intake H → Tx H → Prop)
    [∀ i u, Decidable (P i u)] :
    (i : Intake H) → (rest : List (Tx H)) → Decidable (s.AtTurns P i rest)
  | _, [] => .isTrue trivial
  | i, u :: rest =>
    have := decidableAtTurns s P (i.receive s u) rest
    inferInstanceAs (Decidable (_ ∧ _))

section Receive
variable {order : HashOrder H} {s s' : Sleet H} {tx : Tx H} {h : H}

/-- A coinbase transaction is refused, and one that is stored is not received again. -/
theorem onReceiveTx_untried (order : HashOrder H)
    (untried : ¬ (hasCoinbaseOutput tx.cell = false ∧ s.Lacks tx)) :
    (s.onReceiveTx order tx).state? = some s ∧
      ∀ s₁, s.onReceiveTx order tx ≠ .err .missingAncestry s₁ := by
  unfold onReceiveTx
  split
  · exact ⟨rfl, fun _ same => by cases same⟩
  · rename_i transfer
    have stored : ¬ s.Lacks tx := fun lacks =>
      untried ⟨Bool.eq_false_of_not_eq_true transfer, lacks⟩
    rw [lacks_iff, Bool.not_eq_true] at stored
    rw [stored]
    exact ⟨rfl, fun _ same => by cases same⟩

theorem insertVx_grown {d : DAG H} (linked : s.dag.Linked) (parents : s.hasParents tx = true)
    (vertex : (s.dag.insertVx tx.hash (s.removeAcceptedParents tx.parents)).state? = some d) :
    h ∈ d.g ↔ h ∈ s.dag.g ∨ h = tx.hash := by
  rcases (DAG.insertVx_cases linked (hasParents_inside parents) vertex).2.2 with
    ⟨old, same, _⟩ | ⟨_, new⟩
  · rw [same]
    exact ⟨.inl, fun member => member.elim id fun here => here ▸ old⟩
  · rw [new, Finmap.mem_insert, or_comm]

/-- An insertion is tried that panics, is refused or goes in, or nothing happens. -/
theorem onReceiveTx_effect (order : HashOrder H) (tx : Tx H) (linked : s.dag.Linked)
    (enrolled : s.conflictGraph.Enrolled) :
    (hasCoinbaseOutput tx.cell = false ∧ s.Lacks tx ∧ s.onReceiveTx order tx = .panic ∧
      s.conflictGraph.insertCell order tx.cell = .panic) ∨
    ∃ s', (s.onReceiveTx order tx).state? = some s' ∧
      (¬ (hasCoinbaseOutput tx.cell = false ∧ s.Lacks tx ∧ s.hasParents tx = true) ∧ s' = s ∨
      (hasCoinbaseOutput tx.cell = false ∧ s.Lacks tx ∧ s.hasParents tx = true) ∧
        (s.conflictGraph.Refused tx.cell s'.conflictGraph ∧ s'.dag = s.dag ∧
            s'.knownTxs = s.knownTxs ∨
          s.conflictGraph.Inserted tx.cell s'.conflictGraph ∧
            (∀ h, h ∈ s'.dag.g ↔ h ∈ s.dag.g ∨ h = tx.hash) ∧
            ∀ h ≠ tx.hash, s'.knownTxs.lookup h = s.knownTxs.lookup h)) := by
  by_cases tried : hasCoinbaseOutput tx.cell = false ∧ s.Lacks tx
  · rw [onReceiveTx_tried order tried.1 tried.2]
    by_cases parents : s.hasParents tx = true
    · have tries := And.intro tried.1 (And.intro tried.2 parents)
      rw [if_pos parents]
      rcases insert_cases order s { tx with status := .pending } with
        ⟨panics, same⟩ | ⟨e, cg, conflict, same⟩ | ⟨cg, conflict, ⟨d, vertex, same⟩ |
          ⟨e, d, vertex, same⟩⟩ <;> rw [same]
      · exact .inl ⟨tried.1, tried.2, rfl, panics⟩
      · have refused := ConflictGraph.insertCell_refused (fun h seated => (enrolled h seated).1)
          conflict
        exact .inr ⟨_, rfl, .inr ⟨tries, .inl ⟨refused, rfl, rfl⟩⟩⟩
      · exact .inr ⟨_, rfl, .inr ⟨tries, .inr ⟨enrolled.inserted conflict,
          fun h => insertVx_grown linked parents (congrArg Outcome.state? vertex),
          fun h other => Finmap.lookup_insert_of_ne _ other⟩⟩⟩
      · exact .inr ⟨_, rfl, .inr ⟨tries, .inr ⟨enrolled.inserted conflict,
          fun h => insertVx_grown linked parents (congrArg Outcome.state? vertex),
          fun _ _ => rfl⟩⟩⟩
    · rw [if_neg parents]
      exact .inr ⟨s, rfl, .inl ⟨fun all => parents all.2.2, rfl⟩⟩
  · exact .inr ⟨s, (onReceiveTx_untried order tried).1,
      .inl ⟨fun all => tried ⟨all.1, all.2.1⟩, rfl⟩⟩

theorem Admits.accepted (admits : Admits s s') :
    s'.knownTxs.status h = some .accepted ↔ s.knownTxs.status h = some .accepted := by
  constructor
  · intro accepted
    obtain ⟨stored, found, status⟩ := Option.map_eq_some_iff.mp accepted
    rcases admits.adds h stored found with old | ⟨pending, _⟩
    · exact Option.map_eq_some_iff.mpr ⟨stored, old, status⟩
    · cases pending.symm.trans status
  · intro accepted
    obtain ⟨stored, found, status⟩ := Option.map_eq_some_iff.mp accepted
    have kept := admits.keeps h stored found (by simp [status])
    exact Option.map_eq_some_iff.mpr ⟨stored, kept, status⟩

end Receive

section Intake
variable {s t t' : Sleet H} {i : Intake H} {order : HashOrder H} {tx u : Tx H}

/-- The state `t` after some receipts, told by the state `s` before them. -/
structure Took (s : Sleet H) (i : Intake H) (t : Sleet H) : Prop where
  linked : t.dag.Linked
  enrolled : t.conflictGraph.Enrolled
  has : ∀ h, t.Has h ↔ s.Has h ∨ ∃ x ∈ i.taken, x.hash = h
  lacks : ∀ tx, tx.hash ∉ i.tried → (t.Lacks tx ↔ s.Lacks tx)
  cells : ∀ h, h ∈ t.conflictGraph.cells ↔ h ∈ s.conflictGraph.cells ∨ h ∈ i.tried
  ids : ∀ id, id ∈ t.conflictGraph.vertices ↔
    id ∈ s.conflictGraph.vertices ∨ ∃ x ∈ i.taken, id ∈ x.cell.produced

theorem Took.refl (linked : s.dag.Linked) (enrolled : s.conflictGraph.Enrolled) :
    Took s ⟨[], []⟩ s :=
  ⟨linked, enrolled, by simp, by simp, by simp, by simp⟩

theorem Took.supplied_iff (took : Took s i t) : t.hasParents tx = true ↔ s.Supplied i tx :=
  hasParents_iff.trans (forall₂_congr fun p _ => took.has p)

theorem Took.sourced_iff (took : Took s i t) (fresh : tx.hash ∉ i.tried) : s.Sourced i tx ↔
    tx.hash ∉ t.conflictGraph.cells ∧ ∀ id ∈ tx.cell.consumed, id ∈ t.conflictGraph.vertices := by
  rw [Sourced, took.cells, or_iff_left fresh]
  exact and_congr_right fun _ => forall₂_congr fun id _ => (took.ids id).symm

theorem Took.receive (took : Took s i t) (left : (t.onReceiveTx order tx).state? = some t') :
    Took s (i.receive s tx) t' := by
  have linked := (onReceiveTx_admits left).linked took.linked
  have enrolled := onReceiveTx_enrolled left took.enrolled
  obtain ⟨_, _, panics, _⟩ | ⟨t₁, left₁, effect⟩ :=
    onReceiveTx_effect order tx took.linked took.enrolled
  · rw [panics] at left
    cases left
  cases left₁.symm.trans left
  unfold Intake.receive
  by_cases again : tx.hash ∈ i.tried
  · -- the cell is stored since the first try, so that nothing changes
    have stored : tx.hash ∈ t.conflictGraph.cells := (took.cells _).mpr (.inr again)
    rw [if_neg fun fresh => fresh.1 again]
    rcases effect with ⟨_, rfl⟩ | ⟨_, ⟨refused, dag, txs⟩ | ⟨inserted, _⟩⟩
    · exact took
    · refine ⟨linked, enrolled, ?_, ?_, fun h => ?_, ?_⟩
      · simpa only [Has, dag, txs] using took.has
      · simpa only [Lacks, txs] using took.lacks
      · rw [← took.cells h, refused.cells, Finmap.mem_insert]
        exact or_iff_right_of_imp fun same => same ▸ stored
      · simpa only [refused.ids] using took.ids
    · exact absurd stored inserted.fresh
  · have tries : (hasCoinbaseOutput tx.cell = false ∧ t.Lacks tx ∧ t.hasParents tx = true) ↔
        tx.hash ∉ i.tried ∧ hasCoinbaseOutput tx.cell = false ∧ s.Lacks tx ∧ s.Supplied i tx := by
      rw [took.lacks tx again, took.supplied_iff, and_iff_right again]
    have later : ∀ {x : Tx H}, x.hash ∉ tx.hash :: i.tried → x.hash ≠ tx.hash ∧ x.hash ∉ i.tried :=
      fun fresh => not_or.mp (List.mem_cons.not.mp fresh)
    rcases effect with ⟨untried, rfl⟩ | ⟨tried, ⟨refused, dag, txs⟩ | ⟨inserted, dag, txs⟩⟩
    · rw [if_neg (tries.not.mp untried)]
      exact took
    · have not_sourced : ¬ s.Sourced i tx := by
        rw [took.sourced_iff again]
        rintro ⟨fresh, known⟩
        rcases refused.refused with stored | ⟨id, spent, unknown⟩
        · exact fresh stored
        · exact unknown (known id spent)
      rw [if_pos (tries.mp tried), if_neg not_sourced]
      refine ⟨linked, enrolled, ?_, fun x fresh => ?_, fun h => ?_, ?_⟩
      · simpa only [Has, dag, txs] using took.has
      · rw [← took.lacks x (later fresh).2, Lacks, Lacks, txs]
      · rw [refused.cells, Finmap.mem_insert, took.cells h, List.mem_cons, or_left_comm]
        rfl
      · simpa only [refused.ids] using took.ids
    · rw [if_pos (tries.mp tried), if_pos ((took.sourced_iff again).mpr
        ⟨inserted.fresh, inserted.known⟩)]
      refine ⟨linked, enrolled, fun h => ?_, fun x fresh => ?_, fun h => ?_, fun id => ?_⟩
      · have before := took.has h
        rw [Has] at before
        rw [Has, dag, (onReceiveTx_admits left).accepted, or_right_comm, before,
          List.exists_mem_cons_iff, or_right_comm, or_assoc, eq_comm (a := h)]
      · rw [← took.lacks x (later fresh).2, Lacks, Lacks, txs _ (later fresh).1]
      · rw [inserted.cells, Finmap.mem_insert, took.cells h, List.mem_cons, or_left_comm]
        rfl
      · rw [inserted.ids, took.ids, List.exists_mem_cons_iff, or_assoc,
          or_comm (a := ∃ x ∈ i.taken, id ∈ x.cell.produced)]

theorem Supplied.receive (supplied : s.Supplied i tx) : s.Supplied (i.receive s u) tx := by
  have more : ∀ x ∈ i.taken, x ∈ (i.receive s u).taken := by
    intro x listed
    unfold Intake.receive
    split
    · split
      · exact List.mem_cons_of_mem _ listed
      · exact listed
    · exact listed
  exact fun p declared => (supplied p declared).imp id fun found =>
    found.imp fun x here => ⟨more x here.1, here.2⟩

/-- Every recorded spender has a conflict set. -/
def Seated (s : Sleet H) : Prop :=
  ∀ id, ∀ k ∈ ConflictGraph.spendersAt s.conflictGraph.vertices id, k ∈ s.conflictGraph.cs

/-- An insertion that is not refused does not panic. -/
theorem Seated.receive (seated : t.Seated) (linked : t.dag.Linked)
    (enrolled : t.conflictGraph.Enrolled)
    (known : hasCoinbaseOutput tx.cell = false → t.Lacks tx → tx.hash ∉ t.conflictGraph.cells →
      ∀ id ∈ tx.cell.consumed, id ∈ t.conflictGraph.vertices) :
    ∃ t', (t.onReceiveTx order tx).state? = some t' ∧ t'.Seated := by
  obtain ⟨transfer, lacks, _, panics⟩ | ⟨t', left, effect⟩ :=
    onReceiveTx_effect order tx linked enrolled
  · by_cases stored : tx.hash ∈ t.conflictGraph.cells
    · cases panics.symm.trans (ConflictGraph.insertCell_duplicate order stored)
    · obtain ⟨_, done⟩ := (enrolled.insertCell_ok_iff order tx.cell).mpr
        ⟨stored, known transfer lacks stored, fun k conflict =>
          (ConflictGraph.mem_conflictsOf.mp conflict).elim fun id found => seated id k found.2⟩
      cases panics.symm.trans done
  · refine ⟨t', left, ?_⟩
    rcases effect with ⟨_, rfl⟩ | ⟨⟨transfer, lacks, _⟩, ⟨refused, _⟩ | ⟨inserted, _⟩⟩
    · exact seated
    · intro id k spends
      rw [refused.cs]
      rcases refused.spenders id k spends with old | ⟨_, _, fresh⟩
      · exact seated id k old
      · obtain ⟨id', spent, unknown⟩ := refused.refused.resolve_left fresh
        exact absurd (known transfer lacks fresh id' spent) unknown
    · intro id k spends
      rw [inserted.spenders] at spends
      rw [inserted.mem_cs]
      split at spends
      · cases spends
      · split at spends
        · exact (Finset.mem_insert.mp spends).imp_right (seated id k)
        · exact .inr (seated id k spends)

/-- No insertion panics if none is refused, and none was before. -/
theorem Took.returns {rest : List (Tx H)} (took : Took s i t) (seated : t.Seated)
    (sourced : s.AtTurns s.Sourced i rest) :
    ∃ fresh last, receiveAncestors order rest t = some (fresh, last) := by
  induction rest generalizing i t with
  | nil => exact ⟨_, _, rfl⟩
  | cons u rest ih =>
    obtain ⟨t', left, seated'⟩ := seated.receive took.linked took.enrolled
      fun transfer lacks fresh => by
        have untried : u.hash ∉ i.tried := fun tried => fresh ((took.cells _).mpr (.inr tried))
        exact ((took.sourced_iff untried).mp
          (sourced.1 transfer ((took.lacks u untried).mp lacks))).2
    obtain ⟨fresh, last, received⟩ := ih (took.receive left) seated' sourced.2
    obtain ⟨fresh', received'⟩ := receiveAncestors_cons.mpr ⟨t', left, fresh, received⟩
    exact ⟨fresh', last, received'⟩

end Intake

section Answer
variable {s : Sleet H}

end Answer
end Sleet

namespace Actor
variable {w w' : Actor H}

theorem takes_acyclic {added : Finset H} {rs : List (Sleet H × Tx H)} {s s' : Sleet H}
    (takes : s.Takes added rs s') (linked : s.dag.Linked) (acyclic : s.dag.Acyclic) :
    s'.dag.Acyclic := by
  induction takes with
  | done => exact acyclic
  | aside step _ ih =>
    obtain ⟨linked', _, edges⟩ := step.dag linked
    exact ih linked' (acyclic.of_parent fun v p => (edges v p).mp)
  | @receive order tx s s₁ s₂ rs left _ ih =>
    have linked' := (Sleet.onReceiveTx_admits left).linked linked
    refine ih linked' ?_
    have receipt := Sleet.onReceiveTx_receipt order s tx
    generalize s.onReceiveTx order tx = out at receipt left
    cases receipt with
    | refused => cases left; exact acyclic
    | known => cases left; exact acyclic
    | conflicts => cases left; exact acyclic
    | vertex insertable _ vertex =>
      cases left
      exact acyclic.insertVx linked (Sleet.hasParents_inside insertable.parents)
        (congrArg Outcome.state? vertex)
    | stored insertable _ vertex =>
      cases left
      exact acyclic.insertVx linked (Sleet.hasParents_inside insertable.parents)
        (congrArg Outcome.state? vertex)
    | panic => contradiction

omit [Blake3 H] in
theorem dropAll_parent (hashes : List H) (s : Sleet H) {v p : H}
    (edge : (hashes.foldl Sleet.dropVx s).dag.Parent v p) : s.dag.Parent v p := by
  induction hashes generalizing s with
  | nil => exact edge
  | cons a hashes ih =>
    obtain ⟨d, eq, removed⟩ := Sleet.dropVx_dag s a
    have before := ih (s.dropVx a) edge
    rw [eq] at before
    exact (DAG.removeVx_frame removed).parent v p before

omit [Blake3 H] in
theorem prune_parent {order : HashOrder H} {s s' : Sleet H}
    (done : s.pruneAtAcceptedFrontier order = some s') {v p : H} (edge : s'.dag.Parent v p) :
    s.dag.Parent v p := by
  obtain ⟨s₁, computed, rfl⟩ := Option.map_eq_some_iff.mp done
  obtain ⟨f, _, rfl⟩ := Option.map_eq_some_iff.mp computed
  exact dropAll_parent _ { s with acceptedFrontier := f.accepted } edge

/-- No step makes a cycle: a vertex goes in once, and its parents are vertices then. -/
theorem Move.acyclic {order : HashOrder H} {e : Event H} (move : Move order w e w')
    (sound : Sound w) (acyclic : w.sleet.dag.Acyclic) : w'.sleet.dag.Acyclic := by
  have same : w'.sleet.dag.g = w.sleet.dag.g → w'.sleet.dag.Acyclic := fun g =>
    acyclic.of_parent fun v p => (DAG.parent_congr g).mp
  cases move with
  | receives _ takes => exact takes_acyclic takes sound.linked acyclic
  | complete _ completed =>
    exact same (Sleet.queryComplete_completed sound.linked completed).1.g
  | incomplete _ completed => exact same (Sleet.queryIncomplete_completed completed).g
  | newAccepted _ handled =>
    obtain ⟨s₁, _, pruned, sweep, _⟩ := Sleet.newAccepted_sweep order sound.keyed handled
    exact acyclic.of_parent fun v p edge => sweep.parent v p (prune_parent pruned edge)
  | fetches _ eq => exact same (by rw [eq])

theorem acyclic_run {order : HashOrder H} {id : Id} {ip : SocketAddr}
    {peers : List (Id × SocketAddr)} {steps : List (Actor H × HashOrder H × Event H)}
    (run : Run step (Actor.started (.new order id ip peers)) steps w) : w.sleet.dag.Acyclic := by
  have start : (DAG.new : DAG H).Acyclic := fun v cycle => by
    obtain ⟨u, _, last⟩ := Relation.TransGen.tail'_iff.mp cycle
    exact absurd last.mem Finmap.notMem_empty
  refine (run.invariant (fun _ _ => True) (fun _ _ => trivial)
    (fun w => Sound w ∧ w.sleet.dag.Acyclic) ⟨.started order id ip peers, start⟩ ?_).2
  rintro u ⟨o, e⟩ v ⟨sound, acyclic⟩ _ taken
  have move := step_move taken
  exact ⟨move.sound sound, move.acyclic sound acyclic⟩

/-- The node that asks. -/
def asking : Actor Digest := .started (.new ascendingOrder peer "peer" [])

end Actor
end Subzero
