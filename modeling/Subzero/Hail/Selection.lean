import Subzero.Graph.TopologicalSort
import Subzero.Hail.Ancestry
import Subzero.Hail.Tree
import Subzero.Hail.Voting

/-! The selection of a parent. It walks down from every leaf and collects the strongly
preferred vertices at one height, of which there is at most one. If there is none, it
takes the first element of an empty list. -/
namespace Subzero

namespace DAG
variable {V : Type} [DecidableEq V] {d : DAG V}

/-- Every vertex names at most one parent, which need not be a vertex itself. -/
structure Lines (d : DAG V) : Prop where
  single : ∀ v ps, d.g.lookup v = some ps → ps.length ≤ 1
  edges : ∀ v p, d.Parent v p ↔ d.Child p v
  entry : ∀ v ∈ d.g, v ∈ d.inv

theorem Lines.new : Lines (DAG.new : DAG V) where
  single _ _ found := by cases found
  edges _ _ := ⟨fun edge => absurd edge.mem Finmap.notMem_empty,
    fun child => absurd child.mem Finmap.notMem_empty⟩
  entry _ member := absurd member Finmap.notMem_empty

theorem Lines.of_edges {d' : DAG V} (lines : Lines d) (g : d'.g = d.g) (inv : d'.inv = d.inv) :
    Lines d' where
  single v ps found := lines.single v ps (g ▸ found)
  edges v p := by
    rw [parent_iff, child_iff, g, inv]
    exact lines.edges v p
  entry v member := inv ▸ lines.entry v (g ▸ member)

theorem Lines.insertVx {d' : DAG V} {vx : V} {parent : Option V} (lines : Lines d)
    (fresh : vx ∉ d.g) (left : (d.insertVx vx parent.toList).state? = some d') : Lines d' := by
  obtain ⟨keys, ⟨taken, _⟩ | refused⟩ := insertVx_option fresh left
  · constructor
    · intro v ps found
      rw [taken.g] at found
      rcases HashMap.lookup_insert_some found with ⟨_, rfl⟩ | ⟨_, old⟩
      · cases parent <;> simp
      · exact lines.single v ps old
    · intro v p
      rw [taken.edge fresh, taken.child, lines.edges]
    · intro v member
      rw [taken.g, Finmap.mem_insert] at member
      exact (keys v).mpr (member.imp id (lines.entry v))
  · constructor
    · rw [refused.g]
      exact lines.single
    · intro v p
      rw [parent_iff, refused.g, refused.child]
      exact lines.edges v p
    · intro v member
      rw [refused.g] at member
      exact (keys v).mpr (.inr (lines.entry v member))

theorem Lines.mem_dfs (lines : Lines d) {v a : V} :
    a ∈ d.dfs v ↔ d.Ancestor v a ∧ a ∈ d.g := by
  constructor
  · intro visited
    refine ⟨?_, dfs_mem visited⟩
    obtain ⟨⟨w, listed, path⟩, _⟩ := walk_sound pushStack_perm _ _ _ _ visited
    rwa [List.mem_singleton.mp listed] at path
  · rintro ⟨path, member⟩
    have entries : ∀ u es, d.g.lookup u = some es → u ∈ d.g.keys := fun u es found =>
      HashMap.mem_keys_of_lookup found
    have walked := walk_line pushStack_perm entries lines.single (d.g.keys.card + 1) ∅ v
      (Finset.notMem_empty v) (fun u none => absurd none (Finset.notMem_empty u))
      (by rw [Finset.sdiff_empty]; omega) path (Finmap.mem_iff.mp member)
    rw [dfs, walk_unmarked_start]
    exact walked.resolve_left (Finset.notMem_empty a)

/-- Without a cycle every vertex is on the line of a leaf. -/
theorem Lines.leaf_below (lines : Lines d) (acyclic : Acyclic d) (order : Listing V) {v : V}
    (vertex : v ∈ d.g) : ∃ leaf ∈ d.leaves order, v ∈ d.dfs leaf := by
  obtain ⟨leaf, listed, path⟩ := DAG.leaf_below lines.edges acyclic lines.entry order vertex
  exact ⟨leaf, listed, lines.mem_dfs.mpr ⟨path, vertex⟩⟩

end DAG

variable {H : Type} [LinearOrder H] [BlockDigest H] [Sortition H]

namespace Hail

/-- What the selection relies on: the DAG is made of lines, and the heights of its vertices
have conflict sets. -/
structure Selectable (s : Hail H) : Prop where
  lines : s.dag.Lines
  heights : ∀ v ∈ s.dag.g, v.height ∈ s.conflictMap

omit [Sortition H] in
theorem Selectable.adds {order : HailOrder H} {s s' : Hail H} {block : HailBlock H}
    (selectable : s.Selectable) (adds : s.Adds order block s') : s'.Selectable := by
  refine ⟨selectable.lines.insertVx adds.fresh adds.dag, fun v member => ?_⟩
  have known : v.height = block.block.height ∨ v.height ∈ s.conflictMap := by
    obtain ⟨_, ⟨taken, _⟩ | refused⟩ := DAG.insertVx_option adds.fresh adds.dag
    · rw [taken.g, Finmap.mem_insert] at member
      exact member.imp (congrArg Vertex.height) (selectable.heights v)
    · rw [refused.g] at member
      exact .inr (selectable.heights v member)
  rw [adds.map, Finmap.mem_iff]
  simp only [ConflictMap.insertBlock_lookup]
  split
  · exact ⟨_, rfl⟩
  · rename_i other
    exact Finmap.mem_iff.mp (known.resolve_left other)

omit [Sortition H] in
theorem Selectable.votes {s s' : Hail H} {block : HailBlock H} (selectable : s.Selectable)
    (votes : s.Votes block s') : s'.Selectable := by
  obtain ⟨g, inv⟩ := DAG.setChit_edges (congrArg Outcome.state? votes.chit)
  refine ⟨selectable.lines.of_edges g inv, fun v member => ?_⟩
  exact votes.tally.mem_iff.mpr (selectable.heights v (g ▸ member))

omit [BlockDigest H] [Sortition H] in
theorem allPreferred_total {m : ConflictMap H} {vxs : List (Vertex H)}
    (known : ∀ v ∈ vxs, v.height ∈ m) : ∃ b, allPreferred m vxs = .ok b := by
  induction vxs with
  | nil => exact ⟨true, rfl⟩
  | cons v vxs ih =>
    obtain ⟨cs, found⟩ := Finmap.mem_iff.mp (known v List.mem_cons_self)
    obtain ⟨b, rest⟩ := ih fun u later => known u (List.mem_cons_of_mem v later)
    rw [allPreferred]
    simp only [ConflictMap.isPreferred, ConflictMap.getSet, found, Except.map]
    cases cs.isPreferred v.blockHash with
    | false => exact ⟨false, rfl⟩
    | true => exact ⟨b, rest⟩

section Select
omit [BlockDigest H] [Sortition H]
variable {s : Hail H} {h : BlockHeight}

theorem Selectable.decided (selectable : s.Selectable) (v : Vertex H) :
    ∃ b, s.isStronglyPreferred v = .ok b :=
  allPreferred_total fun u listed => selectable.heights u (DAG.dfs_mem listed)

/-- A strongly preferred vertex is the preferred one of its height. -/
theorem Selectable.preferred (selectable : s.Selectable) {v : Vertex H} (member : v ∈ s.dag.g)
    (strong : s.isStronglyPreferred v = .ok true) :
    ∃ cs, s.conflictMap.lookup v.height = some cs ∧ cs.pref = v.blockHash := by
  have itself : v ∈ s.dag.dfs v := selectable.lines.mem_dfs.mpr ⟨.refl, member⟩
  have preferred := allPreferred_true strong v itself
  obtain ⟨cs, found⟩ := Finmap.mem_iff.mp (selectable.heights v member)
  refine ⟨cs, found, ?_⟩
  simpa [ConflictMap.isPreferred, ConflictMap.getSet, found, Except.map,
    ConflictSet.isPreferred] using preferred

theorem candidates_total (decided : ∀ v, ∃ b, s.isStronglyPreferred v = .ok b)
    (vxs : List (Vertex H)) :
    ∃ found, s.candidates h vxs = .ok found ∧
      ∀ v ∈ vxs, s.isStronglyPreferred v = .ok true → v.height = h - 1 → v ∈ found := by
  induction vxs with
  | nil => exact ⟨[], rfl, by simp⟩
  | cons u vxs ih =>
    obtain ⟨b, judged⟩ := decided u
    obtain ⟨found, rest, complete⟩ := ih
    refine ⟨if b ∧ u.height = h - 1 then u :: found else found, ?_, ?_⟩
    · simp only [candidates, judged, rest, Except.map]
    · intro v listed strong height
      rcases List.mem_cons.mp listed with rfl | later
      · cases Except.ok.inj (judged.symm.trans strong)
        rw [if_pos ⟨rfl, height⟩]
        exact List.mem_cons_self
      · have kept := complete v later strong height
        split
        · exact List.mem_cons_of_mem u kept
        · exact kept

/-- The selection finds the strongly preferred vertex of the height below on the line of a
leaf, if there is one, and panics if there is none. -/
theorem Selectable.selectParent_eq (selectable : s.Selectable) (vertices : s.dag.g.keys ≠ ∅)
    (order : HailOrder H) (h : BlockHeight) :
    (∃ v leaf, leaf ∈ s.dag.leaves order.vertices ∧ v ∈ s.dag.dfs leaf ∧
      s.isStronglyPreferred v = .ok true ∧ v.height = h - 1 ∧
      s.selectParent order h = some (.ok v)) ∨
    (∀ leaf ∈ s.dag.leaves order.vertices, ∀ v ∈ s.dag.dfs leaf,
      s.isStronglyPreferred v = .ok true → v.height ≠ h - 1) ∧ s.selectParent order h = none := by
  obtain ⟨found, collected, complete⟩ := candidates_total (h := h) selectable.decided
    ((s.dag.leaves order.vertices).flatMap s.dag.dfs)
  rw [selectParent, if_neg vertices, collected]
  cases found with
  | nil =>
    refine .inr ⟨fun leaf listed v walked strong height => ?_, rfl⟩
    exact absurd (complete v (List.mem_flatMap.mpr ⟨leaf, listed, walked⟩) strong height)
      List.not_mem_nil
  | cons first vxs =>
    obtain ⟨listed, strong, height⟩ := candidates_spec collected (lowest_mem vxs first)
    obtain ⟨leaf, edge, walked⟩ := List.mem_flatMap.mp listed
    exact .inl ⟨_, leaf, edge, walked, strong, height, rfl⟩

end Select

/-- The selection returns the preferred vertex of the height below if it is in the DAG and
strongly preferred, and an error otherwise. -/
def SelectsPreferred (s : Hail H) (order : HailOrder H) (h : BlockHeight) : Prop :=
  (∀ cs, s.conflictMap.lookup (h - 1) = some cs → ⟨h - 1, cs.pref⟩ ∈ s.dag.g →
    s.isStronglyPreferred ⟨h - 1, cs.pref⟩ = .ok true →
      s.selectParent order h = some (.ok ⟨h - 1, cs.pref⟩)) ∧
  ((¬ ∃ cs, s.conflictMap.lookup (h - 1) = some cs ∧ ⟨h - 1, cs.pref⟩ ∈ s.dag.g ∧
    s.isStronglyPreferred ⟨h - 1, cs.pref⟩ = .ok true) →
      ∃ e, s.selectParent order h = some (.error e))

/-- The preferred vertex of the height below is strongly preferred, and on the line of a leaf. -/
def Findable (s : Hail H) (order : HailOrder H) (h : BlockHeight) : Prop :=
  ∃ cs, s.conflictMap.lookup (h - 1) = some cs ∧
    s.isStronglyPreferred ⟨h - 1, cs.pref⟩ = .ok true ∧
      ∃ leaf ∈ s.dag.leaves order.vertices, ⟨h - 1, cs.pref⟩ ∈ s.dag.dfs leaf

end Hail

namespace HailActor

theorem selectable_run {nodeId : Id} {steps : List (HailActor H × HailOrder H × HailEvent H)}
    {w : HailActor H} (run : Run step (.started nodeId) steps w) : w.hail.Selectable := by
  refine run.invariant (fun _ _ => True) (fun _ _ => trivial) (fun w => w.hail.Selectable) ?_ ?_
  · exact ⟨.new, fun v member => absurd member Finmap.notMem_empty⟩
  · intro u e v selectable _ taken
    rcases (step_does taken).blocks with same | ⟨block, _, adds⟩ | ⟨_, _, _, _, votes⟩
    · constructor
      · rw [same.dag]
        exact selectable.lines
      · rw [same.dag, same.map]
        exact selectable.heights
    · exact selectable.adds adds
    · exact selectable.votes votes

/-- For every run that has left a block, the selection for a height returns the preferred vertex
below, or an error if there is none, exactly if the preferred vertex is strongly preferred and
on the line of a leaf. In every other case it panics. Without a cycle every vertex is on the
line of a leaf. -/
theorem select_parent_preferred {nodeId : Id}
    {steps : List (HailActor H × HailOrder H × HailEvent H)} {w : HailActor H}
    (run : Run step (.started nodeId) steps w) (vertices : w.hail.dag.g.keys ≠ ∅)
    (order : HailOrder H) (h : BlockHeight) :
    (w.hail.SelectsPreferred order h ↔ w.hail.Findable order h) ∧
      (¬ w.hail.Findable order h → w.hail.selectParent order h = none) ∧
      (w.hail.dag.Acyclic → ∀ v ∈ w.hail.dag.g, ∃ leaf ∈ w.hail.dag.leaves order.vertices,
        v ∈ w.hail.dag.dfs leaf) := by
  have selectable := selectable_run run
  refine and_assoc.mp ⟨?_, fun acyclic v present => ?_⟩
  · rcases selectable.selectParent_eq vertices order h with
      ⟨v, leaf, listed, walked, strong, height, selected⟩ | ⟨none, panics⟩
    · -- what is selected is preferred at its height, so it is the preferred vertex
      have member := DAG.dfs_mem walked
      obtain ⟨set, known, pref⟩ := selectable.preferred member strong
      rw [height] at known
      obtain rfl : v = ⟨h - 1, set.pref⟩ := by rw [pref, ← height]
      have findable : w.hail.Findable order h := ⟨set, known, strong, leaf, listed, walked⟩
      refine ⟨iff_of_true ⟨fun cs found _ _ => ?_, fun absent => ?_⟩ findable, absurd findable⟩
      · cases Option.some.inj (known.symm.trans found)
        exact selected
      · exact absurd ⟨set, known, member, strong⟩ absent
    · have lost : ¬ w.hail.Findable order h := by
        rintro ⟨cs, _, strong, leaf, listed, walked⟩
        exact none leaf listed _ walked strong rfl
      refine ⟨iff_of_false (fun selects => ?_) lost, fun _ => panics⟩
      by_cases there : ∃ cs, w.hail.conflictMap.lookup (h - 1) = some cs ∧
          ⟨h - 1, cs.pref⟩ ∈ w.hail.dag.g ∧ w.hail.isStronglyPreferred ⟨h - 1, cs.pref⟩ = .ok true
      · obtain ⟨cs, known, present, strong⟩ := there
        cases panics.symm.trans (selects.1 cs known present strong)
      · obtain ⟨e, failed⟩ := selects.2 there
        cases panics.symm.trans failed
  · exact selectable.lines.leaf_below acyclic order.vertices present

/-- A node with genesis only selects a parent for a block at height 2, of which there is none
at height 1. A node with a block that names itself finds it from no leaf, although it is
strongly preferred. -/
theorem select_parent_panics :
    (∃ steps w, Run step sample steps w ∧ w.hail.dag.g.keys ≠ ∅ ∧
      w.hail.selectParent ascendingVertices 2 = none) ∧
    ∃ steps w cs, Run step sample steps w ∧ w.hail.conflictMap.lookup 5 = some cs ∧
      ⟨5, cs.pref⟩ ∈ w.hail.dag.g ∧ w.hail.isStronglyPreferred ⟨5, cs.pref⟩ = .ok true ∧
      w.hail.selectParent ascendingVertices 6 = none := by
  have first : (runSample [joins 0]).any (fun r => decide (r.2.hail.dag.g.keys ≠ ∅ ∧
      r.2.hail.selectParent ascendingVertices 2 = none)) = true := by decide +kernel
  have second : (runSample [joins 0, .queryBlock ⟨some (blank 5 0).vertex, blank 5 0⟩]).any
      (fun r => (r.2.hail.conflictMap.lookup 5).any (fun cs => decide (
        ⟨5, cs.pref⟩ ∈ r.2.hail.dag.g ∧ r.2.hail.isStronglyPreferred ⟨5, cs.pref⟩ = .ok true ∧
        r.2.hail.selectParent ascendingVertices 6 = none))) = true := by decide +kernel
  obtain ⟨steps, w, run, empty⟩ := exec_any first
  obtain ⟨steps', w', run', loop⟩ := exec_any second
  obtain ⟨cs, found, facts⟩ := (Option.any_eq_true _ _).mp loop
  exact ⟨⟨steps, w, run, of_decide_eq_true empty⟩,
    ⟨steps', w', cs, run', found, of_decide_eq_true facts⟩⟩

/-- A block of a peer on genesis is the parent at height 2. -/
theorem select_parent_preferred_peer : ∃ steps w cs, Run step sample steps w ∧
    w.hail.conflictMap.lookup 1 = some cs ∧
    w.hail.selectParent ascendingVertices 2 = some (.ok ⟨1, cs.pref⟩) := by
  let block : HailBlock Digest := ⟨some genesis.vertex, .new genesis.hash 1 ⟨0⟩ []⟩
  have found : (runSample [joins 0, .queryBlock block]).any (fun r =>
      (r.2.hail.conflictMap.lookup 1).any (fun cs => decide (r.2.hail.dag.g.keys ≠ ∅ ∧
        (∀ x ∈ r.1, (x.1.task x.2.2).Consistent x.1.hail) ∧ ⟨1, cs.pref⟩ ∈ r.2.hail.dag.g ∧
        r.2.hail.isStronglyPreferred ⟨1, cs.pref⟩ = .ok true))) = true := by decide +kernel
  obtain ⟨steps, w, run, facts⟩ := exec_any found
  obtain ⟨cs, known, facts⟩ := (Option.any_eq_true _ _).mp facts
  obtain ⟨vertices, consistent, present, strong⟩ := of_decide_eq_true facts
  have acyclic := (blockTree_run run consistent).acyclic
  obtain ⟨exactly, _, below⟩ := select_parent_preferred run vertices ascendingVertices 2
  have selects := exactly.mpr ⟨cs, known, strong, below acyclic _ present⟩
  exact ⟨steps, w, cs, run, known, selects.1 cs known present strong⟩

end HailActor
end Subzero
