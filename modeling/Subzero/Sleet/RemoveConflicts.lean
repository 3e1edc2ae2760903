import Subzero.Graph.Transpose
import Subzero.Lib.Drain
import Subzero.Sleet.Sample
import Subzero.Sleet.Steps

/-! The removal of conflicts, exactly. The progeny is removed by a work list that may
hold a transaction twice. The conflict graph refuses to remove it again, and that error
ends the loop before the rest of the progeny is removed. -/
namespace Subzero.Sleet
variable {H : Type} [DecidableEq H] [Blake3 H]
variable {s s' s₁ : Sleet H} {children : H → Finset H} {hash t : H} {order : HashOrder H}

/-- A transaction is in neither graph. -/
structure Gone (s : Sleet H) (x : H) : Prop where
  cell : x ∉ s.conflictGraph.cells
  set : x ∉ s.conflictGraph.cs
  conflicts : ∀ k set, s.conflictGraph.cs.lookup k = some set → x ∉ set.conflicts
  vertex : x ∉ s.dag.g
  entry : x ∉ s.dag.inv

/-- Conflicts are rejected, their progeny is removed, and the rest stays as it is. -/
structure Clears (s : Sleet H) (t : H) (s' : Sleet H) : Prop where
  rejected : ∀ r, s.Rejects [t] r → s'.Gone r ∧ s'.knownTxs.status r = some .rejected
  removed : ∀ d, s.Removes [t] d → ¬ s.Rejects [t] d →
    s'.Gone d ∧ s'.knownTxs.status d = some .removed
  status : ∀ x, ¬ s.Swept [t] x → s'.knownTxs.lookup x = s.knownTxs.lookup x
  sets : ∀ x, ¬ s.Swept [t] x → (x ∈ s'.conflictGraph.cs ↔ x ∈ s.conflictGraph.cs) ∧
    ∀ set set', s.conflictGraph.cs.lookup x = some set →
      s'.conflictGraph.cs.lookup x = some set' →
        ∀ y, ¬ s.Swept [t] y → (y ∈ set'.conflicts ↔ y ∈ set.conflicts)
  edges : ∀ x, ¬ s.Swept [t] x → (x ∈ s'.dag.g ↔ x ∈ s.dag.g) ∧
    ∀ y, ¬ s.Swept [t] y → (s'.dag.Parent x y ↔ s.dag.Parent x y) ∧
      (s'.dag.Child x y ↔ s.dag.Child x y)

/-- Some transactions get a status and leave the DAG. -/
structure Wiped (st : TxStatus) (W : Finset H) (s s' : Sleet H) : Prop where
  txs : ∀ h, s'.knownTxs.lookup h =
    if h ∈ W then (s.knownTxs.lookup h).map (mark st) else s.knownTxs.lookup h
  dag : s.dag.Cut W s'.dag

/-- A fixed account of the children fits a DAG that loses vertices. -/
def Tracks (children : H → Finset H) (d : DAG H) : Prop :=
  ∀ u ∈ d.g, d.childSet u = (children u).filter (· ∈ d.g.keys)

section
omit [Blake3 H]

theorem Wiped.refl (st : TxStatus) (s : Sleet H) : Wiped st ∅ s s :=
  ⟨fun h => by simp, .refl _⟩

theorem Wiped.trans {st : TxStatus} {W W' : Finset H} {s₁ s₂ s₃ : Sleet H}
    (first : Wiped st W s₁ s₂) (second : Wiped st W' s₂ s₃) : Wiped st (W ∪ W') s₁ s₃ := by
  refine ⟨fun h => ?_, first.dag.trans second.dag⟩
  rw [second.txs, first.txs]
  by_cases old : h ∈ W <;> by_cases new : h ∈ W' <;> simp [old, new]

theorem Wiped.known {st : TxStatus} {W : Finset H} (wiped : Wiped st W s s') {h : H} :
    h ∈ s'.knownTxs ↔ h ∈ s.knownTxs := by
  rw [Finmap.mem_iff, Finmap.mem_iff, wiped.txs]
  by_cases member : h ∈ W <;> cases s.knownTxs.lookup h <;> simp [member]

theorem Tracks.childSet {d : DAG H} (transposed : d.Transposed) : Tracks d.childSet d := by
  intro u _
  refine (Finset.filter_true_of_mem fun c member => ?_).symm
  exact Finmap.mem_keys.mpr (transposed.child_mem (DAG.mem_childSet.mp member))

theorem Tracks.cut {d d' : DAG H} {R : Finset H} (tracks : Tracks children d) (cut : d.Cut R d') :
    Tracks children d' := by
  intro u present
  obtain ⟨before, outside⟩ := cut.g.mem.mp present
  have same := tracks u before
  ext c
  have here : c ∈ d.childSet u ↔ c ∈ children u ∧ c ∈ d.g := by
    simp [same, Finmap.mem_keys]
  rw [DAG.mem_childSet] at here
  rw [DAG.mem_childSet, cut.child, here, Finset.mem_filter, Finmap.mem_keys, cut.g.mem]
  tauto

theorem reject_ok (order : HashOrder H) (transposed : s.dag.Transposed) (known : hash ∈ s.knownTxs)
    (present : hash ∈ s.dag.g) :
    ∃ s', reject order hash s = .ok (order.hashes.list (s.dag.childSet hash)) s' ∧
      s'.conflictGraph = s.conflictGraph ∧ Wiped .rejected {hash} s s' := by
  obtain ⟨tx, stored⟩ := Finmap.mem_iff.mp known
  obtain ⟨d, removed, cut⟩ := DAG.removeVx_cut transposed present
  have written : s.knownTxs.setStatus hash .rejected =
      .ok (s.knownTxs.insert hash (mark .rejected tx)) := by
    simp only [TxDb.setStatus, stored]
    rfl
  refine ⟨{ s with knownTxs := s.knownTxs.insert hash (mark .rejected tx), dag := d }, ?_, rfl,
    fun h => ?_, cut⟩
  · simp only [reject, written, removed, Outcome.lift, Outcome.bind_ok]
  · rw [TxDb.setStatus_lookup written h]
    simp only [Finset.mem_singleton]
    rfl

theorem reject_known {children : List H} (done : reject order hash s = .ok children s') :
    hash ∈ s.knownTxs ∧ hash ∈ s.dag.g := by
  unfold reject at done
  split at done
  · cases done
  · rename_i db written
    obtain ⟨tx, stored, _⟩ := TxDb.setStatus_ok written
    refine ⟨Finmap.mem_of_lookup_eq_some stored, ?_⟩
    obtain ⟨cs, s₁, lifted, _⟩ := Outcome.bind_eq_ok.mp done
    obtain ⟨d, removed, _⟩ := Outcome.lift_eq_ok.mp lifted
    obtain ⟨_, ⟨⟨e, failed⟩, _⟩ | ⟨_, _, _, _, _, present, _⟩⟩ :=
      DAG.removeVx_cases (congrArg Outcome.state? removed)
    · rw [removed] at failed
      cases failed
    · exact present

/-- The first loop goes through exactly if all conflicts are stored and in the DAG. -/
theorem rejectAll_ok (order : HashOrder H) {children : H → Finset H} {rejected : List H}
    {s : Sleet H} (transposed : s.dag.Transposed) (tracks : Tracks children s.dag)
    (nodup : rejected.Nodup) (there : ∀ r ∈ rejected, r ∈ s.knownTxs ∧ r ∈ s.dag.g) :
    ∃ s', Outcome.gather (reject order) rejected s =
        .ok (queuedAll children order.hashes rejected s.dag.g.keys) s' ∧
      s'.conflictGraph = s.conflictGraph ∧ Wiped .rejected rejected.toFinset s s' := by
  induction rejected generalizing s with
  | nil => exact ⟨s, rfl, rfl, by simpa using Wiped.refl _ s⟩
  | cons r rejected ih =>
    obtain ⟨fresh, nodup⟩ := List.nodup_cons.mp nodup
    obtain ⟨known, present⟩ := there r List.mem_cons_self
    obtain ⟨s₁, first, sets, wiped⟩ := reject_ok order transposed known present
    have later : ∀ x ∈ rejected, x ∈ s₁.knownTxs ∧ x ∈ s₁.dag.g := by
      intro x hx
      obtain ⟨known, present⟩ := there x (List.mem_cons_of_mem r hx)
      refine ⟨wiped.known.mpr known, wiped.dag.g.mem.mpr ⟨present, ?_⟩⟩
      rw [Finset.mem_singleton]
      rintro rfl
      exact fresh hx
    have rest : s₁.dag.g.keys = s.dag.g.keys.erase r := by
      ext x
      rw [Finmap.mem_keys, wiped.dag.g.mem, Finset.mem_erase, Finmap.mem_keys,
        Finset.mem_singleton, and_comm]
    obtain ⟨s₂, second, sets₂, wiped₂⟩ :=
      ih (wiped.dag.transposed transposed) (tracks.cut wiped.dag) nodup later
    refine ⟨s₂, ?_, sets₂.trans sets, ?_⟩
    · simp only [Outcome.gather, first, second, Outcome.bind_ok, queuedAll, queued, rest,
        tracks r present]
    · rw [List.toFinset_cons, Finset.insert_eq]
      exact wiped.trans wiped₂

end

theorem rejectAll_known {rejected children : List H}
    (done : Outcome.gather (reject order) rejected s = .ok children s') :
    ∀ r ∈ rejected, r ∈ s.knownTxs ∧ r ∈ s.dag.g := by
  induction rejected generalizing s s' children with
  | nil => simp
  | cons r rejected ih =>
    obtain ⟨cs, s₁, first, rest⟩ := Outcome.bind_eq_ok.mp done
    obtain ⟨ys, s₂, second, _⟩ := Outcome.bind_eq_ok.mp rest
    have sweep : Sweep (fun _ => True) (fun _ => True) s s₁ :=
      (reject_sweep order trivial (congrArg Outcome.state? first)).1
    refine List.forall_mem_cons.mpr ⟨reject_known first, fun x hx => ?_⟩
    obtain ⟨known, present⟩ := ih second x hx
    obtain ⟨tx', found⟩ := Finmap.mem_iff.mp known
    obtain ⟨tx, _, stored, _⟩ := sweep.stored found
    exact ⟨Finmap.mem_of_lookup_eq_some stored, sweep.vertex x present⟩

/-- What the second loop needs of a state: everything in the DAG can be removed from
both graphs. -/
structure Removable (children : H → Finset H) (s : Sleet H) : Prop where
  transposed : s.dag.Transposed
  tracks : Tracks children s.dag
  consistent : s.conflictGraph.Consistent
  sets : ∀ v ∈ s.dag.g, v ∈ s.conflictGraph.cs

theorem Removable.round (removable : Removable children s) (order : HashOrder H)
    (known : hash ∈ s.knownTxs) (present : hash ∈ s.dag.g) :
    ∃ s', Wiped .removed {hash} s s' ∧ s.conflictGraph.Cut {hash} s'.conflictGraph ∧
      Removable children s' ∧ s'.dag.g.keys = s.dag.g.keys.erase hash ∧ ∀ n queue,
        removeProgeny order (n + 1) (hash :: queue) s = removeProgeny order n
          (queue ++ queued children order.hashes s.dag.g.keys hash) s' := by
  obtain ⟨tx, stored⟩ := Finmap.mem_iff.mp known
  obtain ⟨set, found⟩ := Finmap.mem_iff.mp (removable.sets hash present)
  obtain ⟨c, cell, cut⟩ := ConflictGraph.removeCell_cut order removable.consistent found
  obtain ⟨d, vertex, cut'⟩ := DAG.removeVx_cut removable.transposed present
  have written : s.knownTxs.setStatus hash .removed =
      .ok (s.knownTxs.insert hash (mark .removed tx)) := by
    simp only [TxDb.setStatus, stored]
    rfl
  refine ⟨{ s with
    knownTxs := s.knownTxs.insert hash (mark .removed tx), conflictGraph := c, dag := d },
    ⟨fun h => ?_, cut'⟩, cut, ⟨cut'.transposed removable.transposed, removable.tracks.cut cut',
      cut.consistent removable.consistent, fun v hv => ?_⟩, ?_, fun n queue => ?_⟩
  · rw [TxDb.setStatus_lookup written h]
    simp only [Finset.mem_singleton]
    rfl
  · obtain ⟨before, outside⟩ := cut'.g.mem.mp hv
    obtain ⟨other, there⟩ := Finmap.mem_iff.mp (removable.sets v before)
    exact Finmap.mem_of_lookup_eq_some ((cut.cs v).trans (by rw [if_neg outside, there]; rfl))
  · ext x
    rw [Finmap.mem_keys, cut'.g.mem, Finset.mem_erase, Finmap.mem_keys, Finset.mem_singleton,
      and_comm]
  · simp only [removeProgeny, written, cell, vertex, Outcome.lift, Outcome.bind_ok, queued,
      removable.tracks hash present]

omit [Blake3 H] in
theorem cut_card {R : Finset H} {c c' : ConflictGraph H} (cut : c.Cut R c') (inside : hash ∈ R)
    (present : hash ∈ c.cs) : c'.cs.keys.card < c.cs.keys.card := by
  refine Finset.card_lt_card ⟨fun x hx => ?_, fun sub => ?_⟩
  · obtain ⟨set', found⟩ := HashMap.mem_keys_iff.mp hx
    obtain ⟨set, there, _⟩ := cut.sets found
    exact HashMap.mem_keys_of_lookup there
  · have still := sub (Finmap.mem_keys.mpr present)
    obtain ⟨set', found⟩ := HashMap.mem_keys_iff.mp still
    obtain ⟨_, _, outside, _⟩ := cut.sets found
    exact outside inside

/-- A queue that runs empty is a run of the second loop to its end. -/
theorem removeProgeny_ok (order : HashOrder H) {queue : List H} {there left : Finset H}
    (run : Drains children order.hashes queue there left) (removable : Removable children s)
    (keys : s.dag.g.keys = there) (known : ∀ v ∈ there, v ∉ left → v ∈ s.knownTxs) {n : Nat}
    (fuel : s.conflictGraph.cs.keys.card < n) :
    ∃ s', removeProgeny order n queue s = .ok () s' ∧ Wiped .removed (there \ left) s s' ∧
      s.conflictGraph.Cut (there \ left) s'.conflictGraph := by
  induction run generalizing s n with
  | @done there =>
    obtain ⟨n, rfl⟩ : ∃ m, n = m + 1 := ⟨n - 1, by omega⟩
    rw [Finset.sdiff_self]
    exact ⟨s, rfl, .refl _ _, .refl _⟩
  | @pop v queue there left member rest ih =>
    obtain ⟨n, rfl⟩ : ∃ m, n = m + 1 := ⟨n - 1, by omega⟩
    subst keys
    have gone : v ∉ left := fun still => Finset.notMem_erase v _ (rest.subset still)
    have present := Finmap.mem_keys.mp member
    obtain ⟨s₁, wiped, cut, removable₁, keys₁, round⟩ :=
      removable.round order (known v member gone) present
    have later : ∀ x ∈ s.dag.g.keys.erase v, x ∉ left → x ∈ s₁.knownTxs := fun x hx out =>
      wiped.known.mpr (known x (Finset.mem_of_mem_erase hx) out)
    have fewer := cut_card cut (Finset.mem_singleton_self v) (removable.sets v present)
    obtain ⟨s', done, wiped', cut'⟩ := @ih s₁ removable₁ keys₁ later n (by omega)
    have union : s.dag.g.keys \ left = {v} ∪ (s.dag.g.keys.erase v \ left) := by
      ext x
      simp only [Finset.mem_sdiff, Finset.mem_union, Finset.mem_singleton, Finset.mem_erase]
      by_cases hx : x = v
      · simp [hx, member, gone]
      · simp [hx]
    rw [union]
    exact ⟨s', by rw [round, done], wiped.trans wiped', cut.trans cut'⟩

/-- A run of the second loop to its end is a queue that runs empty. What is queued has
a conflict set only while it is in the DAG. -/
theorem removeProgeny_drains {n : Nat} {queue : List H} (removable : Removable children s)
    (inside : ∀ q ∈ queue, q ∈ s.conflictGraph.cs → q ∈ s.dag.g)
    (done : removeProgeny order n queue s = .ok () s') :
    ∃ left, Drains children order.hashes queue s.dag.g.keys left := by
  induction n generalizing queue s with
  | zero => cases done
  | succ n ih =>
    cases queue with
    | nil => exact ⟨_, .done⟩
    | cons hash queue =>
      have both : hash ∈ s.knownTxs ∧ hash ∈ s.conflictGraph.cs := by
        unfold removeProgeny at done
        split at done
        · cases done
        · rename_i db written
          obtain ⟨tx, stored, _⟩ := TxDb.setStatus_ok written
          obtain ⟨_, s₁, lifted, _⟩ := Outcome.bind_eq_ok.mp done
          obtain ⟨c, removed, _⟩ := Outcome.lift_eq_ok.mp lifted
          refine ⟨Finmap.mem_of_lookup_eq_some stored, ?_⟩
          by_contra absent
          simp [ConflictGraph.removeCell, Finmap.lookup_eq_none.mpr absent] at removed
      have present := inside hash List.mem_cons_self both.2
      obtain ⟨s₁, wiped, cut, removable₁, keys₁, round⟩ := removable.round order both.1 present
      rw [round] at done
      have inside₁ : ∀ q ∈ queue ++ queued children order.hashes s.dag.g.keys hash,
          q ∈ s₁.conflictGraph.cs → q ∈ s₁.dag.g := by
        intro q hq hasSet
        obtain ⟨set', found⟩ := Finmap.mem_iff.mp hasSet
        obtain ⟨set, there, outside, _⟩ := cut.sets found
        refine wiped.dag.g.mem.mpr ⟨?_, outside⟩
        rcases List.mem_append.mp hq with old | new
        · exact inside q (List.mem_cons_of_mem hash old) (Finmap.mem_of_lookup_eq_some there)
        · have child := (order.hashes.mem _ _).mp new
          exact Finmap.mem_keys.mp (Finset.mem_filter.mp child).2
      obtain ⟨left, run⟩ := ih removable₁ inside₁ done
      rw [keys₁] at run
      exact ⟨left, .pop (Finmap.mem_keys.mpr present) run⟩

/-- The condition: all conflicts are in the DAG, they and their progeny are stored,
and the removal meets none of them twice in any order. -/
structure Sweepable (s : Sleet H) (rejected : Finset H) : Prop where
  conflicts : ∀ r ∈ rejected, r ∈ s.knownTxs ∧ r ∈ s.dag.g
  progeny : ∀ r ∈ rejected, ∀ d, s.dag.Progeny r d → d ∈ s.knownTxs
  orderly : Orderly s.dag.childSet rejected

section Exact
variable {s : Sleet H} {tx : Tx H} {set : ConflictSet H}

omit [Blake3 H] in
theorem rejects_iff {t r : H} (known : s.conflictGraph.cs.lookup t = some set) :
    s.Rejects [t] r ↔ r ∈ set.conflicts.erase t := by
  unfold Rejects
  simp [known, and_comm]

omit [Blake3 H] in
theorem swept_iff {t x : H} (known : s.conflictGraph.cs.lookup t = some set) :
    s.Swept [t] x ↔ ∃ j, x ∈ reached s.dag.childSet (set.conflicts.erase t) j := by
  have same : (fun u v => v ∈ s.dag.childSet u) = s.dag.Child := by
    funext u v
    exact propext DAG.mem_childSet
  rw [exists_reached, same]
  unfold Swept Removes DAG.Progeny
  simp only [rejects_iff known, Relation.reflTransGen_iff_eq_or_transGen]
  constructor
  · rintro (rejected | ⟨r, rejected, path⟩)
    · exact ⟨x, rejected, Or.inl rfl⟩
    · exact ⟨r, rejected, Or.inr path⟩
  · rintro ⟨r, rejected, rfl | path⟩
    · exact Or.inl rejected
    · exact Or.inr ⟨r, rejected, path⟩

/-- The first part of the removal: the conflicts are settled and rejected. -/
structure Rejected (s : Sleet H) (t : H) (set : ConflictSet H) (s₁ : Sleet H) : Prop where
  settled : s.conflictGraph.Settled t set s₁.conflictGraph
  wiped : Wiped .rejected (set.conflicts.erase t) s s₁

/-- The conflicts in the order in which they are rejected. -/
def rejectedList (order : Listing H) (t : H) (set : ConflictSet H) : List H :=
  (order.list set.conflicts).filter (· ≠ t)

omit [Blake3 H] in
theorem rejectedList_spec (order : Listing H) (t : H) (set : ConflictSet H) :
    (rejectedList order t set).Nodup ∧
      (rejectedList order t set).toFinset = set.conflicts.erase t := by
  refine ⟨(order.nodup _).filter _, ?_⟩
  ext h
  simp [rejectedList, order.mem, and_comm]

theorem Rejected.removable (transposed : s.dag.Transposed)
    (sets : ∀ v ∈ s.dag.g, v ∈ s.conflictGraph.cs) (consistent : s.conflictGraph.Consistent)
    (rejected : s.Rejected t set s₁) : Removable s.dag.childSet s₁ where
  transposed := rejected.wiped.dag.transposed transposed
  tracks := (Tracks.childSet transposed).cut rejected.wiped.dag
  consistent := rejected.settled.consistent consistent
  sets v hv := by
    obtain ⟨present, outside⟩ := rejected.wiped.dag.g.mem.mp hv
    have own := consistent.own t set rejected.settled.known
    exact ((rejected.settled.cut_sets (.refl _) own (Finset.notMem_empty v) outside).1).mpr
      (sets v present)

theorem removeConflicts_rejected (order : HashOrder H) (transposed : s.dag.Transposed)
    (consistent : s.conflictGraph.Consistent)
    (stored : s.conflictGraph.cells.lookup tx.hash = some tx.cell)
    (known : s.conflictGraph.cs.lookup tx.hash = some set)
    (there : ∀ r ∈ set.conflicts.erase tx.hash, r ∈ s.knownTxs ∧ r ∈ s.dag.g) :
    ∃ s₁, s.Rejected tx.hash set s₁ ∧ s.removeConflicts order tx =
      removeProgeny order (s₁.conflictGraph.cs.keys.card + 1) (queuedAll s.dag.childSet
        order.hashes (rejectedList order.hashes tx.hash set) s.dag.g.keys) s₁ := by
  obtain ⟨c, settled, accepted⟩ := ConflictGraph.acceptCell_ok order consistent stored known
  obtain ⟨nodup, lists⟩ := rejectedList_spec order.hashes tx.hash set
  have there' : ∀ r ∈ rejectedList order.hashes tx.hash set, r ∈ s.knownTxs ∧ r ∈ s.dag.g :=
    fun r hr => there r (lists ▸ List.mem_toFinset.mpr hr)
  obtain ⟨s₁, done, sets, wiped⟩ := @rejectAll_ok _ _ order s.dag.childSet _
    { s with conflictGraph := c } transposed (Tracks.childSet transposed) nodup there'
  rw [lists] at wiped
  refine ⟨s₁, ⟨sets ▸ settled, wiped.txs, wiped.dag⟩, ?_⟩
  simp only [removeConflicts, accepted, Outcome.lift, Outcome.bind_ok]
  change (Outcome.gather (reject order) (rejectedList order.hashes tx.hash set) _).bind _ = _
  rw [done, Outcome.bind_ok]

theorem clears {s₁ s₂ : Sleet H} {W : Finset H} (consistent : s.conflictGraph.Consistent)
    (sweepable : s.Sweepable (set.conflicts.erase t)) (rejected : s.Rejected t set s₁)
    (wiped : Wiped .removed W s₁ s₂) (cut : s₁.conflictGraph.Cut W s₂.conflictGraph)
    (exactly : ∀ x, x ∈ W ↔ s.Swept [t] x ∧ x ∉ set.conflicts.erase t) : s.Clears t s₂ := by
  have known := rejected.settled.known
  have all : s.dag.Cut (set.conflicts.erase t ∪ W) s₂.dag := rejected.wiped.dag.trans wiped.dag
  have unswept : ∀ x, ¬ s.Swept [t] x → x ∉ W ∧ x ∉ set.conflicts.erase t := by
    intro x out
    refine ⟨fun member => out ((exactly x).mp member).1, fun member => out (Or.inl ?_)⟩
    exact (rejects_iff known).mpr member
  have gone : ∀ x, x ∈ W ∨ x ∈ set.conflicts.erase t → s₂.Gone x := by
    intro x member
    have both : x ∈ set.conflicts.erase t ∪ W := Finset.mem_union.mpr member.symm
    obtain ⟨cell, noSet, conflicts⟩ := rejected.settled.cut_gone cut member
    exact ⟨cell, noSet, conflicts, fun h => (all.g.mem.mp h).2 both,
      fun h => (all.inv.mem.mp h).2 both⟩
  refine ⟨fun r hr => ?_, fun d hd fresh => ?_, fun x out => ?_, fun x out => ?_, fun x out => ?_⟩
  · have member := (rejects_iff known).mp hr
    refine ⟨gone r (Or.inr member), ?_⟩
    have apart : r ∉ W := fun inside => ((exactly r).mp inside).2 member
    obtain ⟨tx, stored⟩ := Finmap.mem_iff.mp (sweepable.conflicts r member).1
    simp [TxDb.status, wiped.txs, apart, rejected.wiped.txs, member, stored, mark,
      -Finset.mem_erase]
  · have apart := mt (rejects_iff known).mpr fresh
    have member : d ∈ W := (exactly d).mpr ⟨Or.inr hd, apart⟩
    refine ⟨gone d (Or.inl member), ?_⟩
    obtain ⟨r, hr, path⟩ := hd
    obtain ⟨tx, stored⟩ := Finmap.mem_iff.mp
      (sweepable.progeny r ((rejects_iff known).mp hr) d path)
    simp [TxDb.status, wiped.txs, apart, rejected.wiped.txs, member, stored, mark,
      -Finset.mem_erase]
  · obtain ⟨outside, kept⟩ := unswept x out
    rw [wiped.txs, if_neg outside, rejected.wiped.txs, if_neg kept]
  · obtain ⟨outside, kept⟩ := unswept x out
    have own := consistent.own t set known
    obtain ⟨iff, members⟩ := rejected.settled.cut_sets cut own outside kept
    exact ⟨iff, fun old new found found' y hy =>
      members old new found found' y (unswept y hy).1 (unswept y hy).2⟩
  · have outside : ∀ y, ¬ s.Swept [t] y → y ∉ set.conflicts.erase t ∪ W := fun y hy member =>
      (Finset.mem_union.mp member).elim (unswept y hy).2 (unswept y hy).1
    refine ⟨?_, fun y hy => ⟨?_, ?_⟩⟩
    · rw [all.g.mem, and_iff_left (outside x out)]
    · rw [all.parent, and_iff_left ⟨outside x out, outside y hy⟩]
    · rw [all.child, and_iff_left ⟨outside x out, outside y hy⟩]

omit [Blake3 H] in
theorem rejectedList_starts (t : H) (set : ConflictSet H) :
    Starts (set.conflicts.erase t) fun order => rejectedList order t set where
  lists order := (rejectedList_spec order t set).2
  prefers front x member first := by
    obtain ⟨ne, inside⟩ := Finset.mem_erase.mp member
    obtain ⟨y, rest, eq, _, front_y⟩ := @Listing.prefer_head H front (· ≠ t) set.conflicts x inside
      (by simpa using ne) first
    have listed : y ∈ rejectedList (.prefer front) t set := by
      rw [show rejectedList (.prefer front) t set = y :: rest from eq]
      exact List.mem_cons_self
    refine ⟨y, rest, eq, ?_, front_y⟩
    rw [← (rejectedList_spec (.prefer front) t set).2]
    exact List.mem_toFinset.mpr listed

omit [Blake3 H] in
theorem childSet_inside (transposed : s.dag.Transposed) (u : H) :
    s.dag.childSet u ⊆ s.dag.g.keys := fun _ member =>
  Finmap.mem_keys.mpr (transposed.child_mem (DAG.mem_childSet.mp member))

omit [Blake3 H] in
theorem Rejected.keys (rejected : s.Rejected t set s₁) :
    s₁.dag.g.keys = s.dag.g.keys \ set.conflicts.erase t := by
  ext x
  rw [Finmap.mem_keys, rejected.wiped.dag.g.mem, Finset.mem_sdiff, Finmap.mem_keys]

theorem Sweepable.clears (order : HashOrder H) (transposed : s.dag.Transposed)
    (sets : ∀ v ∈ s.dag.g, v ∈ s.conflictGraph.cs) (consistent : s.conflictGraph.Consistent)
    (stored : s.conflictGraph.cells.lookup tx.hash = some tx.cell)
    (known : s.conflictGraph.cs.lookup tx.hash = some set)
    (sweepable : s.Sweepable (set.conflicts.erase tx.hash)) :
    ∃ s', s.removeConflicts order tx = .ok () s' ∧ s.Clears tx.hash s' := by
  obtain ⟨s₁, rejected, eq⟩ :=
    removeConflicts_rejected order transposed consistent stored known sweepable.conflicts
  obtain ⟨nodup, lists⟩ := rejectedList_spec order.hashes tx.hash set
  have sub : set.conflicts.erase tx.hash ⊆ s.dag.g.keys := fun r hr =>
    Finmap.mem_keys.mpr (sweepable.conflicts r hr).2
  obtain ⟨left, run, gone⟩ := @Orderly.drains _ _ _ _ order.hashes _ (childSet_inside transposed)
    sub sweepable.orderly 0 _ nodup lists
  rw [nearer, Finset.sdiff_empty, ← List.append_nil (rejectedList _ _ _), drains_append,
    List.nil_append, lists, ← rejected.keys] at run
  have reach : ∀ x ∈ s.dag.g.keys, x ∉ left → s.Swept [tx.hash] x := by
    intro x present out
    rw [swept_iff known]
    by_contra none_reached
    exact out ((gone x).mpr ⟨present, fun j near => none_reached ⟨j, near⟩⟩)
  have inside : ∀ x, s.Swept [tx.hash] x → x ∈ s.dag.g.keys ∧ x ∈ s.knownTxs := by
    rintro x (hr | ⟨r, hr, path⟩)
    · have both := sweepable.conflicts x ((rejects_iff known).mp hr)
      exact ⟨Finmap.mem_keys.mpr both.2, both.1⟩
    · refine ⟨?_, sweepable.progeny r ((rejects_iff known).mp hr) x path⟩
      obtain ⟨v, _, edge⟩ := Relation.TransGen.tail'_iff.mp path
      exact Finmap.mem_keys.mpr (transposed.child_mem edge)
  have stored₁ : ∀ x ∈ s₁.dag.g.keys, x ∉ left → x ∈ s₁.knownTxs := by
    intro x present out
    rw [rejected.keys, Finset.mem_sdiff] at present
    exact rejected.wiped.known.mpr (inside x (reach x present.1 out)).2
  obtain ⟨s₂, done, wiped, cut⟩ := removeProgeny_ok order run.2
    (rejected.removable transposed sets consistent) rfl stored₁ (Nat.lt_succ_self _)
  refine ⟨s₂, eq.trans done, Sleet.clears consistent sweepable rejected wiped cut fun x => ?_⟩
  rw [Finset.mem_sdiff, rejected.keys, Finset.mem_sdiff]
  constructor
  · rintro ⟨⟨present, kept⟩, out⟩
    exact ⟨reach x present out, kept⟩
  · rintro ⟨swept, kept⟩
    refine ⟨⟨(inside x swept).1, kept⟩, fun still => ?_⟩
    obtain ⟨j, near⟩ := (swept_iff known).mp swept
    exact ((gone x).mp still).2 j near

theorem removeConflicts_known (consistent : s.conflictGraph.Consistent)
    (stored : s.conflictGraph.cells.lookup tx.hash = some tx.cell)
    (known : s.conflictGraph.cs.lookup tx.hash = some set)
    (done : s.removeConflicts order tx = .ok () s') :
    ∀ r ∈ set.conflicts.erase tx.hash, r ∈ s.knownTxs ∧ r ∈ s.dag.g := by
  obtain ⟨c, _, accepted⟩ := ConflictGraph.acceptCell_ok order consistent stored known
  unfold removeConflicts at done
  rw [accepted] at done
  simp only [Outcome.lift, Outcome.bind_ok] at done
  obtain ⟨children, s₁, gathered, _⟩ := Outcome.bind_eq_ok.mp done
  intro r hr
  refine rejectAll_known gathered r ?_
  rw [← (rejectedList_spec order.hashes tx.hash set).2, List.mem_toFinset] at hr
  exact hr

theorem sweepable_of_clears (transposed : s.dag.Transposed)
    (sets : ∀ v ∈ s.dag.g, v ∈ s.conflictGraph.cs) (consistent : s.conflictGraph.Consistent)
    (stored : s.conflictGraph.cells.lookup tx.hash = some tx.cell)
    (known : s.conflictGraph.cs.lookup tx.hash = some set)
    (works : ∀ order, ∃ s', s.removeConflicts order tx = .ok () s' ∧ s.Clears tx.hash s') :
    s.Sweepable (set.conflicts.erase tx.hash) := by
  let any : HashOrder H := ⟨.prefer fun _ => True, .prefer fun _ => True, .prefer fun _ => True⟩
  obtain ⟨s', done, clears⟩ := works any
  have there := removeConflicts_known consistent stored known done
  refine ⟨there, fun r hr d path => ?_, ?_⟩
  · by_cases rejected : s.Rejects [tx.hash] d
    · exact (there d ((rejects_iff known).mp rejected)).1
    · have removed := (clears.removed d ⟨r, (rejects_iff known).mpr hr, path⟩ rejected).2
      obtain ⟨tx', found, _⟩ := Option.map_eq_some_iff.mp removed
      have sweep : Sweep (fun _ => True) (fun _ => True) s s' :=
        removeConflicts_sweep any (fun _ _ _ _ _ => trivial) (fun _ _ _ _ => trivial)
          (congrArg Outcome.state? done)
      obtain ⟨tx₀, _, stored₀, _⟩ := sweep.stored found
      exact Finmap.mem_of_lookup_eq_some stored₀
  · have sub : set.conflicts.erase tx.hash ⊆ s.dag.g.keys := fun r hr =>
      Finmap.mem_keys.mpr (there r hr).2
    refine orderly_of_drains (childSet_inside transposed) sub (rejectedList_starts tx.hash set)
      fun o => ?_
    obtain ⟨s', done, _⟩ := works ⟨any.cellIds, o, any.ids⟩
    obtain ⟨s₁, rejected, eq⟩ :=
      removeConflicts_rejected ⟨any.cellIds, o, any.ids⟩ transposed consistent stored known there
    rw [eq] at done
    obtain ⟨nodup, lists⟩ := rejectedList_spec o tx.hash set
    have inside : ∀ q ∈ queuedAll s.dag.childSet o (rejectedList o tx.hash set) s.dag.g.keys,
        q ∈ s₁.conflictGraph.cs → q ∈ s₁.dag.g := by
      intro q hq hasSet
      refine rejected.wiped.dag.g.mem.mpr ⟨Finmap.mem_keys.mp (mem_queuedAll hq), fun hr => ?_⟩
      exact (rejected.settled.cut_gone (.refl _) (Or.inr hr)).2.1 hasSet
    obtain ⟨left, run⟩ :=
      removeProgeny_drains (rejected.removable transposed sets consistent) inside done
    refine ⟨left, ?_⟩
    rw [← List.append_nil (rejectedList _ _ _), drains_append, List.nil_append, lists,
      ← rejected.keys]
    refine ⟨⟨nodup, fun r hr => sub ?_⟩, run⟩
    exact lists ▸ List.mem_toFinset.mpr hr

/-- The removal of conflicts is complete and exact in every order exactly if it meets
no transaction twice. -/
theorem removeConflicts_clears_iff (s : Sleet H) (tx : Tx H) (set : ConflictSet H)
    (transposed : s.dag.Transposed) (sets : ∀ v ∈ s.dag.g, v ∈ s.conflictGraph.cs)
    (consistent : s.conflictGraph.Consistent)
    (stored : s.conflictGraph.cells.lookup tx.hash = some tx.cell)
    (known : s.conflictGraph.cs.lookup tx.hash = some set) :
    (∀ order, ∃ s', s.removeConflicts order tx = .ok () s' ∧ s.Clears tx.hash s') ↔
      s.Sweepable (set.conflicts.erase tx.hash) :=
  ⟨sweepable_of_clears transposed sets consistent stored known,
    fun sweepable order => sweepable.clears order transposed sets consistent stored known⟩

end Exact
end Subzero.Sleet

namespace Subzero.Actor

/-- A diamond below the conflict: its last transaction is queued twice, and what
depends on it is not removed. -/
theorem diamond_not_cleared :
    ∃ (steps : List (Actor Digest × HashOrder Digest × Event Digest)) (w : Actor Digest)
      (t d : Tx Digest) (e : SleetError Digest) (s' : Sleet Digest), Run step sample steps w ∧
      w.sleet.dag.Transposed ∧ w.sleet.dag.Acyclic ∧
      (∀ v ∈ w.sleet.dag.g, v ∈ w.sleet.conflictGraph.cs) ∧
      w.sleet.conflictGraph.cells.lookup t.hash = some t.cell ∧
      t.hash ∈ w.sleet.conflictGraph.cs ∧ w.sleet.Removes [t.hash] d.hash ∧
      w.sleet.removeConflicts ascendingOrder t = .err e s' ∧
      d.hash ∈ s'.dag.g ∧ d.hash ∈ s'.conflictGraph.cs ∧
      s'.knownTxs.status d.hash = some .pending := by
  let t := transfer [] 0
  let u : Tx Digest := .new [] (pay [mint 0] 8)
  let a := transfer [u] 1
  let b := transfer [u] 2
  let c := transfer [a, b] 3
  let d := transfer [c] 4
  let rank := [t, u, a, b, c, d].map Tx.hash
  have found : (runSample (joins 5 :: [t, u, a, b, c, d].map receive)).any (fun r =>
      match r.2.sleet.removeConflicts ascendingOrder t with
      | .err _ s' => decide (r.2.sleet.dag.Transposed ∧
          (∀ v ∈ r.2.sleet.dag.g.keys, (∀ l ∈ r.2.sleet.dag.g.lookup v, ∀ p ∈ l,
            rank.idxOf p < rank.idxOf v) ∧ v ∈ r.2.sleet.conflictGraph.cs) ∧
          r.2.sleet.conflictGraph.cells.lookup t.hash = some t.cell ∧
          t.hash ∈ r.2.sleet.conflictGraph.cs ∧
          (∃ set ∈ r.2.sleet.conflictGraph.cs.lookup t.hash, u.hash ∈ set.conflicts ∧
            u.hash ≠ t.hash) ∧
          a.hash ∈ r.2.sleet.dag.childSet u.hash ∧ c.hash ∈ r.2.sleet.dag.childSet a.hash ∧
          d.hash ∈ r.2.sleet.dag.childSet c.hash ∧ d.hash ∈ s'.dag.g ∧
          d.hash ∈ s'.conflictGraph.cs ∧ s'.knownTxs.status d.hash = some .pending)
      | _ => false) = true := by
    decide +kernel
  obtain ⟨steps, w, run, both⟩ := exec_any found
  cases removed : w.sleet.removeConflicts ascendingOrder t with
  | err e s' =>
    simp only [removed] at both
    obtain ⟨transposed, ranked, stored, known, ⟨set, there, conflict, ne⟩, ua, ac, cd, left⟩ :=
      of_decide_eq_true both
    have acyclic : w.sleet.dag.Acyclic := by
      refine .of_rank (rank.idxOf ·) ?_
      rintro v p ⟨l, lists, member⟩
      have present := HashMap.mem_keys_of_lookup lists
      exact (ranked v present).1 l lists p member
    have path : w.sleet.dag.Progeny u.hash d.hash :=
      ((Relation.TransGen.single (DAG.mem_childSet.mp ua)).tail (DAG.mem_childSet.mp ac)).tail
        (DAG.mem_childSet.mp cd)
    exact ⟨steps, w, t, d, e, s', run, transposed, acyclic,
      fun v hv => (ranked v (Finmap.mem_keys.mpr hv)).2, stored, known,
      ⟨u.hash, ⟨t.hash, List.mem_singleton_self _, set, there, conflict, ne⟩, path⟩, removed, left⟩
  | _ => simp [removed] at both

theorem removeConflicts_clears_chain :
    ∃ (steps : List (Actor Digest × HashOrder Digest × Event Digest)) (w : Actor Digest)
      (t u d : Tx Digest), Run step sample steps w ∧ w.sleet.Rejects [t.hash] u.hash ∧
      w.sleet.Removes [t.hash] d.hash ∧ ∀ order, ∃ s',
        w.sleet.removeConflicts order t = .ok () s' ∧ w.sleet.Clears t.hash s' := by
  let t := transfer [] 0
  let u : Tx Digest := .new [] (pay [mint 0] 8)
  let d := transfer [u] 1
  have found : (runSample (joins 2 :: [t, u, d].map receive)).any (fun r =>
      (r.2.sleet.conflictGraph.cs.lookup t.hash).any fun set =>
        decide (r.2.sleet.dag.Transposed ∧
          (∀ v ∈ r.2.sleet.dag.g.keys, v ∈ r.2.sleet.conflictGraph.cs ∧ v ∈ r.2.sleet.knownTxs) ∧
          r.2.sleet.conflictGraph.cells.lookup t.hash = some t.cell ∧
          u.hash ∈ set.conflicts.erase t.hash ∧ d.hash ∈ r.2.sleet.dag.childSet u.hash ∧
          set.conflicts.erase t.hash ⊆ r.2.sleet.dag.g.keys ∧
          level r.2.sleet.dag.childSet (set.conflicts.erase t.hash) 2 = ∅ ∧
          ∀ k < 2, OrderlyAt r.2.sleet.dag.childSet (set.conflicts.erase t.hash) k)) = true := by
    decide +kernel
  obtain ⟨steps, w, run, both⟩ := exec_any found
  obtain ⟨set, known, rest⟩ := (Option.any_eq_true _ _).mp both
  obtain ⟨transposed, present, stored, conflict, child, inside, empty, near⟩ :=
    of_decide_eq_true rest
  have rejects : w.sleet.Rejects [t.hash] u.hash := (Sleet.rejects_iff known).mpr conflict
  have sweepable : w.sleet.Sweepable (set.conflicts.erase t.hash) := by
    refine ⟨fun r hr => ?_, fun r _ x path => ?_, orderly_of_empty empty near⟩
    · exact ⟨(present r (inside hr)).2, Finmap.mem_keys.mp (inside hr)⟩
    · obtain ⟨v, _, edge⟩ := Relation.TransGen.tail'_iff.mp path
      exact (present x (Finmap.mem_keys.mpr (transposed.child_mem edge))).2
  refine ⟨steps, w, t, u, d, run, rejects, ⟨u.hash, rejects, .single (DAG.mem_childSet.mp child)⟩,
    ?_⟩
  exact (Sleet.removeConflicts_clears_iff w.sleet t set transposed
    (fun v hv => (present v (Finmap.mem_keys.mpr hv)).1) (consistent_run hash_injective run)
    stored known).mpr sweepable

end Subzero.Actor
