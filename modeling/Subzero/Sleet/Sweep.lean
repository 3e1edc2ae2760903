import Subzero.Graph.Shrink
import Subzero.Sleet.Acceptance

/-! What the removal of conflicts can touch, also when it stops at an error. The
conflicts of accepted transactions may be rejected and their progeny may be
removed; everything else keeps its status and its edges. -/
namespace Subzero.Sleet
variable {H : Type} [DecidableEq H] [Blake3 H]

/-- No more than `R` is rejected and no more than `D` is removed. -/
structure Sweep (R D : H → Prop) (s s' : Sleet H) : Prop where
  txs : ∀ h, s'.knownTxs.lookup h = s.knownTxs.lookup h ∨
    R h ∧ s'.knownTxs.lookup h = (s.knownTxs.lookup h).map (mark .rejected) ∨
    D h ∧ s'.knownTxs.lookup h = (s.knownTxs.lookup h).map (mark .removed)
  parent : ∀ v p, s'.dag.Parent v p → s.dag.Parent v p
  child : ∀ v c, s'.dag.Child v c → s.dag.Child v c
  vertex : ∀ v ∈ s'.dag.g, v ∈ s.dag.g
  keep : ∀ v p, ¬ (R v ∨ D v) → ¬ (R p ∨ D p) → s.dag.Parent v p → s'.dag.Parent v p
  sets : ConflictGraph.Shrinks (fun x => R x ∨ D x) s.conflictGraph s'.conflictGraph
  calls : s.conflictGraph.Calls s'.conflictGraph
  linked : s.dag.Linked → s'.dag.Linked
  chits : s'.dag.chits = s.dag.chits

/-- The conflicts of the transactions of a `NewAccepted` message. -/
def Rejects (s : Sleet H) (hashes : List H) (r : H) : Prop :=
  ∃ t ∈ hashes, ∃ set ∈ s.conflictGraph.cs.lookup t, r ∈ set.conflicts ∧ r ≠ t

/-- The progeny of these conflicts. -/
def Removes (s : Sleet H) (hashes : List H) (d : H) : Prop :=
  ∃ r, s.Rejects hashes r ∧ s.dag.Progeny r d

/-- Both of them. -/
def Swept (s : Sleet H) (hashes : List H) (x : H) : Prop :=
  s.Rejects hashes x ∨ s.Removes hashes x

/-- None of the transactions has a conflict. -/
def Unopposed (s : Sleet H) (hashes : List H) : Prop :=
  ∀ t ∈ hashes, ∀ set ∈ s.conflictGraph.cs.lookup t, ∀ r ∈ set.conflicts, r = t

instance (s : Sleet H) (hashes : List H) : Decidable (s.Unopposed hashes) :=
  inferInstanceAs (Decidable (∀ t ∈ hashes, _))

omit [Blake3 H] in
theorem Unopposed.not_rejects {s : Sleet H} {hashes : List H} (alone : s.Unopposed hashes) (r : H) :
    ¬ s.Rejects hashes r := by
  rintro ⟨t, listed, set, known, conflict, ne⟩
  exact ne (alone t listed set known r conflict)

section
variable {R D : H → Prop}

theorem Sweep.refl (s : Sleet H) : Sweep R D s s :=
  ⟨fun _ => Or.inl rfl, fun _ _ h => h, fun _ _ h => h, fun _ h => h, fun _ _ _ _ h => h,
    .refl _ _, .refl, id, rfl⟩

theorem Sweep.trans {s₁ s₂ s₃ : Sleet H} (first : Sweep R D s₁ s₂) (second : Sweep R D s₂ s₃) :
    Sweep R D s₁ s₃ where
  txs h := by
    -- the later of two marks is the one that is left
    have last : ∀ st, s₃.knownTxs.lookup h = (s₂.knownTxs.lookup h).map (mark st) →
        s₃.knownTxs.lookup h = (s₁.knownTxs.lookup h).map (mark st) := by
      intro st eq
      rcases first.txs h with eq₁ | ⟨_, eq₁⟩ | ⟨_, eq₁⟩ <;> rw [eq, eq₁] <;>
        simp [Option.map_map]
    rcases second.txs h with eq | ⟨r, eq⟩ | ⟨d, eq⟩
    · rw [eq]
      exact first.txs h
    · exact Or.inr (Or.inl ⟨r, last _ eq⟩)
    · exact Or.inr (Or.inr ⟨d, last _ eq⟩)
  parent v p h := first.parent v p (second.parent v p h)
  child v c h := first.child v c (second.child v c h)
  vertex v h := first.vertex v (second.vertex v h)
  keep v p hv hp h := second.keep v p hv hp (first.keep v p hv hp h)
  sets := first.sets.trans second.sets
  calls := first.calls.trans second.calls
  linked := second.linked ∘ first.linked
  chits := second.chits.trans first.chits

theorem Sweep.of_status {s : Sleet H} {db : TxDb H} {hash : H} {st : TxStatus}
    (written : s.knownTxs.setStatus hash st = .ok db)
    (mark_ok : R hash ∧ st = .rejected ∨ D hash ∧ st = .removed) :
    Sweep R D s { s with knownTxs := db } := by
  refine { Sweep.refl s with txs := fun h => ?_ }
  have lookup := TxDb.setStatus_lookup written h
  by_cases hh : h = hash
  · subst hh
    rw [if_pos rfl] at lookup
    rcases mark_ok with ⟨r, rfl⟩ | ⟨d, rfl⟩
    · exact Or.inr (Or.inl ⟨r, lookup⟩)
    · exact Or.inr (Or.inr ⟨d, lookup⟩)
  · rw [if_neg hh] at lookup
    exact Or.inl lookup

theorem Sweep.of_sets {s : Sleet H} {cg : ConflictGraph H}
    (shrinks : ConflictGraph.Shrinks (fun x => R x ∨ D x) s.conflictGraph cg)
    (calls : s.conflictGraph.Calls cg) : Sweep R D s { s with conflictGraph := cg } :=
  { Sweep.refl s with sets := shrinks, calls := calls }

theorem Sweep.of_removeVx {s : Sleet H} {d : DAG H} {hash : H} (gone : R hash ∨ D hash)
    (left : (s.dag.removeVx hash).state? = some d) : Sweep R D s { s with dag := d } := by
  have frame := DAG.removeVx_frame left
  have apart : ∀ v, ¬ (R v ∨ D v) → v ≠ hash := fun v hv eq => hv (eq ▸ gone)
  exact { Sweep.refl s with
    parent := frame.parent
    child := frame.child
    vertex := frame.vertex
    keep := fun v p hv hp => frame.keep v p (apart v hv) (apart p hp)
    linked := fun linked => linked.removeVx left
    chits := (DAG.removeVx_cases left).1 }

omit [Blake3 H] in
theorem removeVx_children {d d' : DAG H} {vx : H} {children : Finset H}
    (done : d.removeVx vx = .ok children d') : ∀ c ∈ children, d.Child vx c := by
  intro c member
  obtain ⟨_, ⟨⟨e, eq⟩, _⟩ | ⟨listed, _, _, eq, known, _⟩⟩ :=
    DAG.removeVx_cases (congrArg Outcome.state? done)
  · rw [done] at eq; cases eq
  · rw [done] at eq
    obtain ⟨rfl, _⟩ := Outcome.ok.inj eq
    exact ⟨listed, known, List.mem_toFinset.mp member⟩

theorem reject_sweep (order : HashOrder H) {s s' : Sleet H} {hash : H} (rejected : R hash)
    (left : (reject order hash s).state? = some s') :
    Sweep R D s s' ∧ ∀ children, reject order hash s = .ok children s' →
      ∀ c ∈ children, s.dag.Child hash c := by
  unfold reject at left ⊢
  cases written : s.knownTxs.setStatus hash .rejected with
  | error e =>
    simp only [written] at left ⊢
    cases left
    exact ⟨.refl _, fun _ h => by cases h⟩
  | ok db =>
    have sweep : ∀ d, (s.dag.removeVx hash).state? = some d →
        Sweep R D s { s with knownTxs := db, dag := d } := by
      intro d gone
      have status : Sweep R D s { s with knownTxs := db } :=
        .of_status written (Or.inl ⟨rejected, rfl⟩)
      exact status.trans (.of_removeVx (Or.inl rejected) gone)
    cases removed : s.dag.removeVx hash with
    | panic => simp [written, removed, Outcome.lift] at left
    | err e d =>
      simp only [written, removed, Outcome.lift, Outcome.bind_err] at left ⊢
      cases left
      exact ⟨sweep d (by rw [removed]; rfl), fun _ h => by cases h⟩
    | ok children d =>
      simp only [written, removed, Outcome.lift, Outcome.bind_ok] at left ⊢
      cases left
      refine ⟨sweep d (by rw [removed]; rfl), fun _ h => ?_⟩
      cases h
      intro c member
      exact removeVx_children removed c ((order.hashes.mem _ _).mp member)

/-- The first loop: what is rejected leaves the DAG, and its children are queued. -/
theorem rejectAll_sweep (order : HashOrder H) {rejected : List H} (inR : ∀ r ∈ rejected, R r)
    {s s' : Sleet H} (down : ∀ v c, R v ∨ D v → s.dag.Child v c → D c)
    (left : (Outcome.gather (reject order) rejected s).state? = some s') :
    Sweep R D s s' ∧ ∀ children, Outcome.gather (reject order) rejected s = .ok children s' →
      ∀ c ∈ children, D c := by
  induction rejected generalizing s with
  | nil =>
    cases left
    refine ⟨.refl _, fun _ h => ?_⟩
    cases h
    simp
  | cons r rejected ih =>
    have hr := inR r List.mem_cons_self
    have later := fun x hx => inR x (List.mem_cons_of_mem r hx)
    unfold Outcome.gather at left ⊢
    cases first : reject order r s with
    | panic => simp [first] at left
    | err e s₁ =>
      simp only [first, Outcome.bind_err] at left ⊢
      cases left
      exact ⟨(reject_sweep order hr (by rw [first]; rfl)).1, fun _ h => by cases h⟩
    | ok queued s₁ =>
      simp only [first, Outcome.bind_ok] at left ⊢
      obtain ⟨sweep, children⟩ := reject_sweep order (D := D) hr (congrArg Outcome.state? first)
      have down₁ : ∀ v c, R v ∨ D v → s₁.dag.Child v c → D c :=
        fun v c hv h => down v c hv (sweep.child v c h)
      have rest := @ih later s₁ down₁
      cases second : Outcome.gather (reject order) rejected s₁ with
      | panic => simp [second] at left
      | err e s₂ =>
        simp only [second, Outcome.bind_err] at left ⊢
        cases left
        exact ⟨sweep.trans (rest (by rw [second]; rfl)).1, fun _ h => by cases h⟩
      | ok more s₂ =>
        simp only [second, Outcome.bind_ok] at left ⊢
        cases left
        obtain ⟨sweep₂, rest_children⟩ := rest (by rw [second]; rfl)
        refine ⟨sweep.trans sweep₂, fun _ h => ?_⟩
        cases h
        intro c member
        rcases List.mem_append.mp member with member | member
        · exact down r c (Or.inl hr) (children queued first c member)
        · exact rest_children more second c member

/-- One round of the second loop, wherever it stops: the transaction is not stored, its
cell cannot be removed, or the loop goes on, also where the vertex cannot be removed. -/
theorem removeProgeny_round {order : HashOrder H} {n : Nat} {hash : H} {queue : List H}
    {s s' : Sleet H} (left : (removeProgeny order (n + 1) (hash :: queue) s).state? = some s') :
    s' = s ∨ ∃ db, s.knownTxs.setStatus hash .removed = .ok db ∧
      ((∃ e c, s.conflictGraph.removeCell order hash = .err e c ∧
        s' = { s with knownTxs := db, conflictGraph := c }) ∨
      ∃ c d next, s.conflictGraph.removeCell order hash = .ok () c ∧
        (s.dag.removeVx hash).state? = some d ∧ (∀ q ∈ next, q ∈ queue ∨ s.dag.Child hash q) ∧
        (removeProgeny order n next
          { s with knownTxs := db, conflictGraph := c, dag := d }).state? = some s') := by
  unfold removeProgeny at left
  cases written : s.knownTxs.setStatus hash .removed with
  | error e =>
    simp only [written] at left
    cases left
    exact .inl rfl
  | ok db =>
    simp only [written] at left
    refine .inr ⟨db, rfl, ?_⟩
    cases cell : s.conflictGraph.removeCell order hash with
    | panic => simp [cell, Outcome.lift] at left
    | err e c =>
      simp only [cell, Outcome.lift, Outcome.bind_err] at left
      cases left
      exact .inl ⟨e, c, rfl, rfl⟩
    | ok _ c =>
      simp only [cell, Outcome.lift, Outcome.bind_ok] at left
      right
      cases vertex : s.dag.removeVx hash with
      | panic => simp [vertex] at left
      | err e d =>
        simp only [vertex] at left
        exact ⟨c, d, queue, rfl, rfl, fun q listed => .inl listed, left⟩
      | ok children d =>
        simp only [vertex] at left
        refine ⟨c, d, _, rfl, rfl, fun q listed => ?_, left⟩
        refine (List.mem_append.mp listed).imp id fun child => ?_
        exact removeVx_children vertex q ((order.hashes.mem _ _).mp child)

/-- The second loop: the queue holds progeny, and so do the lists put on it. -/
theorem removeProgeny_sweep (order : HashOrder H) {n : Nat} {queue : List H} {s s' : Sleet H}
    (inD : ∀ q ∈ queue, D q) (down : ∀ v c, D v → s.dag.Child v c → D c)
    (left : (removeProgeny order n queue s).state? = some s') : Sweep R D s s' := by
  induction n generalizing queue s with
  | zero => cases left
  | succ n ih =>
    cases queue with
    | nil => cases left; exact .refl _
    | cons hash queue =>
      have gone := inD hash List.mem_cons_self
      obtain rfl | ⟨db, written, rest⟩ := removeProgeny_round left
      · exact .refl _
      have cells : ∀ c, (s.conflictGraph.removeCell order hash).state? = some c →
          Sweep R D s { s with knownTxs := db, conflictGraph := c } := fun c removed =>
        .trans (.of_status written (Or.inr ⟨gone, rfl⟩))
          (.of_sets (ConflictGraph.removeCell_shrinks order (Or.inr gone) removed).1
            (@ConflictGraph.Calls.of_call _ _ _ _ _ order (.removeCell hash) nofun removed))
      obtain ⟨e, c, cell, rfl⟩ | ⟨c, d, next, cell, vertex, listed, left⟩ := rest
      · exact cells c (congrArg Outcome.state? cell)
      have sweep : Sweep R D s { s with knownTxs := db, conflictGraph := c, dag := d } :=
        (cells c (congrArg Outcome.state? cell)).trans (.of_removeVx (Or.inr gone) vertex)
      refine sweep.trans (ih (fun q member => ?_)
        (fun v child hv h => down v child hv (sweep.child v child h)) left)
      rcases listed q member with later | child
      · exact inD q (List.mem_cons_of_mem hash later)
      · exact down hash q gone child

theorem removeConflicts_sweep (order : HashOrder H) {s s' : Sleet H} {tx : Tx H}
    (inR : ∀ set, s.conflictGraph.cs.lookup tx.hash = some set → ∀ x ∈ set.conflicts,
      x ≠ tx.hash → R x)
    (down : ∀ v c, R v ∨ D v → s.dag.Child v c → D c)
    (left : (s.removeConflicts order tx).state? = some s') : Sweep R D s s' := by
  unfold removeConflicts at left
  have shrinks : ∀ cg, (s.conflictGraph.acceptCell order tx.cell).state? = some cg →
      Sweep R D s { s with conflictGraph := cg } ∧ ∀ rejected,
        s.conflictGraph.acceptCell order tx.cell = .ok rejected cg → ∀ r ∈ rejected, R r := by
    intro cg accepted
    have out := ConflictGraph.acceptCell_shrinks order (X := fun x => R x ∨ D x)
      (fun set known x hx ne => Or.inl (inR set known x hx ne)) accepted
    have out' := ConflictGraph.acceptCell_shrinks order (X := R) inR accepted
    refine ⟨.of_sets out.1 (@ConflictGraph.Calls.of_call _ _ _ _ _ order (.acceptCell tx.cell)
      nofun ?_), out'.2.2⟩
    rwa [ConflictGraph.call, Outcome.state?_bind_ok]
  cases accepted : s.conflictGraph.acceptCell order tx.cell with
  | panic => simp [accepted, Outcome.lift] at left
  | err e cg =>
    simp only [accepted, Outcome.lift, Outcome.bind_err] at left
    cases left
    exact (shrinks cg (by rw [accepted]; rfl)).1
  | ok rejected cg =>
    simp only [accepted, Outcome.lift, Outcome.bind_ok] at left
    obtain ⟨sweep, conflicts⟩ := shrinks cg (by rw [accepted]; rfl)
    have inR' := conflicts rejected accepted
    have first := @rejectAll_sweep _ _ _ R D order rejected inR' { s with conflictGraph := cg }
    rcases Outcome.state?_bind left with failed | ⟨children, s₁, done, left⟩
    · exact sweep.trans (first down failed).1
    · obtain ⟨sweep₁, queued⟩ := first down (congrArg Outcome.state? done)
      refine (sweep.trans sweep₁).trans
        (removeProgeny_sweep order (queued children done) (fun v c hv h => ?_) left)
      exact down v c (Or.inr hv) (sweep₁.child v c h)

theorem Sweep.stored {s s' : Sleet H} (sweep : Sweep R D s s') {h : H} {tx' : Tx H}
    (found : s'.knownTxs.lookup h = some tx') :
    ∃ tx st, s.knownTxs.lookup h = some tx ∧ tx' = mark st tx := by
  rcases sweep.txs h with eq | ⟨_, eq⟩ | ⟨_, eq⟩
  · exact ⟨tx', tx'.status, eq ▸ found, rfl⟩
  · rw [found, eq_comm, Option.map_eq_some_iff] at eq
    obtain ⟨tx, known, rfl⟩ := eq
    exact ⟨tx, _, known, rfl⟩
  · rw [found, eq_comm, Option.map_eq_some_iff] at eq
    obtain ⟨tx, known, rfl⟩ := eq
    exact ⟨tx, _, known, rfl⟩

theorem Sweep.known {s s' : Sleet H} (sweep : Sweep R D s s') {h : H} (member : h ∈ s.knownTxs) :
    h ∈ s'.knownTxs := by
  obtain ⟨tx, found⟩ := Finmap.mem_iff.mp member
  rw [Finmap.mem_iff]
  rcases sweep.txs h with eq | ⟨_, eq⟩ | ⟨_, eq⟩ <;> simp [eq, found]

theorem Sweep.keyed {s s' : Sleet H} (sweep : Sweep R D s s') (keyed : s.Keyed) : s'.Keyed := by
  intro h tx' found
  obtain ⟨tx, st, known, rfl⟩ := sweep.stored found
  exact keyed h tx known

/-- The cells that are sent to hail, hash by hash. -/
def Cells (s : Sleet H) : List H → List (Cell H) → Prop :=
  List.Forall₂ fun h c => ∃ tx, s.knownTxs.lookup h = some tx ∧ tx.cell = c

theorem Cells.hashes {s : Sleet H} (keyed : s.Keyed) {hashes : List H} {cells : List (Cell H)}
    (forwarded : s.Cells hashes cells) : cells.map Cell.hash = hashes := by
  induction forwarded with
  | nil => rfl
  | cons stored _ ih =>
    obtain ⟨tx, found, rfl⟩ := stored
    rw [List.map_cons, ih, ← keyed _ tx found]
    rfl

omit [Blake3 H] in
theorem Cells.stored {s : Sleet H} {hashes : List H} {cells : List (Cell H)}
    (forwarded : s.Cells hashes cells) :
    ∀ c ∈ cells, ∃ h tx, s.knownTxs.lookup h = some tx ∧ tx.cell = c := by
  induction forwarded with
  | nil => simp
  | cons stored _ ih => exact List.forall_mem_cons.mpr ⟨⟨_, stored⟩, ih⟩

omit [Blake3 H] in
theorem Cells.sent {s : Sleet H} {hashes : List H} {cells : List (Cell H)}
    (forwarded : s.Cells hashes cells) :
    ∀ h ∈ hashes, ∃ tx, s.knownTxs.lookup h = some tx ∧ tx.cell ∈ cells := by
  induction forwarded with
  | nil => simp
  | cons stored _ ih =>
    obtain ⟨tx, found, rfl⟩ := stored
    refine List.forall_mem_cons.mpr ⟨⟨tx, found, List.mem_cons_self⟩, fun h member => ?_⟩
    obtain ⟨tx', found', sent⟩ := ih h member
    exact ⟨tx', found', List.mem_cons_of_mem _ sent⟩

theorem forwardCells_sweep (order : HashOrder H) {hashes : List H} {s s' : Sleet H}
    {cells : List (Cell H)} (keyed : s.Keyed)
    (inR : ∀ t ∈ hashes, ∀ set, s.conflictGraph.cs.lookup t = some set → ∀ x ∈ set.conflicts,
      x ≠ t → R x)
    (down : ∀ v c, R v ∨ D v → s.dag.Child v c → D c)
    (done : forwardCells order hashes s = some (cells, s')) :
    Sweep R D s s' ∧ s.Cells hashes cells := by
  induction hashes generalizing s cells with
  | nil =>
    cases done
    exact ⟨.refl _, .nil⟩
  | cons t hashes ih =>
    unfold forwardCells TxDb.getTx at done
    cases known : s.knownTxs.lookup t with
    | none => simp [known] at done
    | some tx =>
      simp only [known] at done
      split at done
      · cases done
      · rename_i s₁ removed
        obtain ⟨⟨cells₁, s₂⟩, rest, eq⟩ := Option.map_eq_some_iff.mp done
        cases eq
        have hash : tx.hash = t := keyed t tx known
        have sweep : Sweep R D s s₁ := by
          refine removeConflicts_sweep order ?_ down removed
          rw [hash]
          exact inR t List.mem_cons_self
        obtain ⟨sweep₁, forwarded⟩ := ih (sweep.keyed keyed) (fun u hu set' found x hx ne => by
          obtain ⟨set, there, _, sub, _⟩ := sweep.sets.below u set' found
          exact inR u (List.mem_cons_of_mem t hu) set there x ((sub x hx).resolve_left ne) ne)
          (fun v c hv h => down v c hv (sweep.child v c h)) rest
        refine ⟨sweep.trans sweep₁, .cons ⟨tx, known, rfl⟩ (forwarded.imp fun h c hc => ?_)⟩
        obtain ⟨tx', found, cell⟩ := hc
        obtain ⟨tx₀, st, there, rfl⟩ := sweep.stored found
        exact ⟨tx₀, there, cell⟩

end

omit [Blake3 H] in
/-- Pruning takes vertices out of the DAG and changes nothing else but the
recorded frontier. -/
theorem dropVx_dag (s : Sleet H) (hash : H) :
    ∃ d, s.dropVx hash = { s with dag := d } ∧ (s.dag.removeVx hash).state? = some d := by
  unfold dropVx
  cases removed : s.dag.removeVx hash with
  | ok children d => exact ⟨d, rfl, rfl⟩
  | err e d => exact ⟨d, rfl, rfl⟩
  | panic =>
    exfalso
    unfold DAG.removeVx at removed
    split at removed
    · cases removed
    · split at removed
      · cases removed
      · split at removed
        · cases removed
        · split at removed <;> cases removed

omit [Blake3 H] in
theorem dropAll_dag (hashes : List H) (s : Sleet H) :
    ∃ d, hashes.foldl dropVx s = { s with dag := d } ∧ (s.dag.Linked → d.Linked) ∧
      ∀ v ∉ hashes, v ∈ s.dag.g → v ∈ d.g := by
  induction hashes generalizing s with
  | nil => exact ⟨s.dag, rfl, id, fun _ _ => id⟩
  | cons a hashes ih =>
    obtain ⟨d, eq, removed⟩ := dropVx_dag s a
    obtain ⟨d', eq', linked, others⟩ := ih (s.dropVx a)
    rw [List.foldl_cons, eq']
    rw [eq] at linked others
    refine ⟨d', by rw [eq], fun before => linked (before.removeVx removed), fun v hv present => ?_⟩
    rw [List.mem_cons, not_or] at hv
    exact others v hv.2 ((DAG.removeVx_frame removed).others v hv.1 present)

omit [Blake3 H] in
theorem prune_some (order : HashOrder H) {s s' : Sleet H}
    (done : s.pruneAtAcceptedFrontier order = some s') :
    s'.knownTxs = s.knownTxs ∧ s'.conflictGraph = s.conflictGraph ∧
      (s.dag.Linked → s'.dag.Linked) := by
  obtain ⟨s₁, computed, rfl⟩ := Option.map_eq_some_iff.mp done
  obtain ⟨f, _, rfl⟩ := Option.map_eq_some_iff.mp computed
  obtain ⟨d, eq, linked, _⟩ := dropAll_dag ((order.hashes.list
    (f.accepted.biUnion fun v => (s.dag.dfs v).toFinset)).filter (· ∉ f.accepted))
    { s with acceptedFrontier := f.accepted }
  simp only
  rw [eq]
  exact ⟨rfl, rfl, linked⟩

/-- What a `NewAccepted` message can touch, said on the state before it. -/
theorem newAccepted_sweep (order : HashOrder H) {s s' : Sleet H} {hashes : List H}
    {cells : List (Cell H)} (keyed : s.Keyed)
    (done : s.newAccepted order hashes = some (cells, s')) :
    ∃ s₁, forwardCells order hashes s = some (cells, s₁) ∧
      s₁.pruneAtAcceptedFrontier order = some s' ∧
      Sweep (s.Rejects hashes) (s.Removes hashes) s s₁ ∧ s.Cells hashes cells := by
  obtain ⟨⟨cells₁, s₁⟩, forwarded, rest⟩ := Option.bind_eq_some_iff.mp done
  obtain ⟨s₂, pruned, eq⟩ := Option.map_eq_some_iff.mp rest
  cases eq
  refine ⟨s₁, forwarded, pruned, ?_⟩
  refine forwardCells_sweep order keyed (fun t ht set known x hx ne => ?_) (fun v c hv h => ?_)
    forwarded
  · exact ⟨t, ht, set, known, hx, ne⟩
  · rcases hv with rejected | ⟨r, rejected, path⟩
    · exact ⟨v, rejected, .single h⟩
    · exact ⟨r, rejected, path.tail h⟩

end Subzero.Sleet
