import Subzero.Hail.Refusal
import Subzero.Hail.Selection
import Subzero.Hail.Ties

/-! Nodes that know the same blocks act alike. Until the votes of a query are counted, the
DAG and the preferences of a node are determined by the blocks that it knows, whatever the
order in which they came. -/
namespace Subzero
variable {H : Type} [LinearOrder H] [BlockDigest H] [Sortition H]
variable {t : Hail H} {order : HailOrder H} {block root : HailBlock H} {w : HailActor H}

namespace Hail

/-- The parents that a vertex has by the known blocks. The first block of a node is in the
DAG without being known, and keeps its parents when it comes again. -/
def parentsBy (root : HailBlock H) (known : HashMap H (HailBlock H)) (v : Vertex H) :
    Option (List (Vertex H)) :=
  if v = root.vertex then some root.parent.toList
  else (known.lookup v.blockHash).bind fun b =>
    if b.vertex = v then some b.parent.toList else none

/-- No vote was counted: every height prefers the least of its hashes. -/
structure Undecided (root : HailBlock H) (s : Hail H) : Prop where
  intact : s.Intact
  chits : ∀ v, s.dag.chits.lookup v ≠ some 1
  tied : ∀ h cs, s.conflictMap.lookup h = some cs → cs.Tied cs.conflicts
  edges : ∀ v, s.dag.g.lookup v = parentsBy root s.knownBlocks v

section Keeps
omit [Sortition H]
variable {root : HailBlock H} {s s' : Hail H} {order : HailOrder H} {block : HailBlock H}

theorem Undecided.of_same (undecided : s.Undecided root) (map : s'.conflictMap = s.conflictMap)
    (dag : s'.dag = s.dag) (known : s'.knownBlocks = s.knownBlocks) : s'.Undecided root := by
  refine ⟨undecided.intact.of_same map dag, ?_, ?_, ?_⟩
  · rw [dag]
    exact undecided.chits
  · rw [map]
    exact undecided.tied
  · rw [dag, known]
    exact undecided.edges

theorem Undecided.root_mem (undecided : s.Undecided root) : root.vertex ∈ s.dag.g := by
  have found : s.dag.g.lookup root.vertex = some root.parent.toList := by
    rw [undecided.edges, parentsBy, if_pos rfl]
  exact Finmap.mem_of_lookup_eq_some found

theorem tied_insertBlock {m : ConflictMap H} {b : Block H} (list : Listing H)
    (tied : ∀ h cs, m.lookup h = some cs → cs.Tied cs.conflicts) (h : BlockHeight)
    (cs : ConflictSet H) (found : (m.insertBlock list b).lookup h = some cs) :
    cs.Tied cs.conflicts := by
  rw [ConflictMap.insertBlock_lookup] at found
  split at found
  · obtain rfl := Option.some.inj found
    split
    · rename_i set old
      have next := (tied _ set old).insertHash list b.hash
      rwa [← ConflictSet.insertHash_conflicts list] at next
    · exact .new b.hash
  · exact tied h cs found

/-- A new block brings its own parents. -/
theorem parentsBy_insert {known : HashMap H (HailBlock H)} (unknown : block.hash ∉ known)
    (v : Vertex H) : parentsBy root (known.insert block.hash block) v =
      if v ≠ root.vertex ∧ v = block.vertex then some block.parent.toList
      else parentsBy root known v := by
  unfold parentsBy
  by_cases first : v = root.vertex
  · simp [first]
  · rw [if_neg first, if_neg first, HashMap.lookup_insert_ite]
    by_cases own : v = block.vertex
    · subst own
      have here : block.vertex.blockHash = block.hash := rfl
      simp [first, here]
    · have other : block.vertex ≠ v := fun same => own same.symm
      by_cases hash : v.blockHash = block.hash
      · have none : known.lookup v.blockHash = none :=
          Finmap.lookup_eq_none.mpr (hash ▸ unknown)
        simp [own, other, hash, none]
      · simp [own, hash]

/-- What is inserted has the edges that its block brings. -/
theorem Undecided.inserted_edges (undecided : s.Undecided root)
    (unknown : block.hash ∉ s.knownBlocks) (inserted : s.insert order block = .ok () t)
    (v : Vertex H) :
    t.dag.g.lookup v = parentsBy root (s.knownBlocks.insert block.hash block) v := by
  rw [parentsBy_insert unknown]
  rcases insert_ok inserted with rfl | ⟨ins, _⟩
  · -- the vertex is there already, so the block is the first one
    split
    · rename_i own
      obtain ⟨other, rfl⟩ := own
      have present := insert_vertex inserted
      obtain ⟨parents, found⟩ := Finmap.mem_iff.mp present
      rw [undecided.edges, parentsBy, if_neg other] at found
      obtain ⟨b, stored, _⟩ := Option.bind_eq_some_iff.mp found
      exact absurd (Finmap.mem_of_lookup_eq_some stored) unknown
    · exact undecided.edges v
  · rw [ins.g, HashMap.lookup_insert_ite, undecided.edges]
    have other : block.vertex ≠ root.vertex := fun same =>
      ins.fresh (same ▸ undecided.root_mem)
    by_cases own : v = block.vertex
    · rw [if_pos own, if_pos ⟨own ▸ other, own⟩]
    · rw [if_neg own, if_neg fun both => own both.2]

theorem Undecided.received (undecided : s.Undecided root) (placed : s.Placed block)
    (left : (s.onReceiveBlock order block).state? = some s') : s'.Undecided root := by
  have untouched : s.Untouched order block := undecided.intact.untouched_iff.mpr placed
  have intact := undecided.intact.received untouched left
  cases result : s.onReceiveBlock order block with
  | panic =>
    rw [result] at left
    cases left
  | err e t =>
    rw [result] at left
    cases left
    obtain ⟨map, dag, known⟩ := untouched e s' result
    exact undecided.of_same map dag known
  | ok new t =>
    rw [result] at left
    cases left
    unfold onReceiveBlock at result
    split at result
    · cases result
      exact undecided
    · rename_i unknown
      obtain ⟨_, t, inserted, stored⟩ := Outcome.bind_eq_ok.mp result
      cases stored
      have same := insert_known (congrArg Outcome.state? inserted)
      have edges := undecided.inserted_edges unknown inserted
      rcases insert_ok inserted with rfl | ⟨ins, map⟩
      · exact ⟨intact, undecided.chits, undecided.tied, edges⟩
      · refine ⟨intact, fun v => ?_, fun h cs found => ?_, ?_⟩
        · rw [ins.chits, HashMap.lookup_insert_ite]
          split
          · simp
          · exact undecided.chits v
        · rw [map] at found
          exact tied_insertBlock order.hashes undecided.tied h cs found
        · rw [same]
          exact edges

end Keeps

section Agreement
omit [Sortition H]
variable {root : HailBlock H} {s s' : Hail H}

/-- Two nodes with the same blocks: the DAG and the preferences are the same. The hashes that
were voted for last, and the order of inverted edges, may differ. -/
structure Alike (s s' : Hail H) : Prop where
  known : s'.knownBlocks = s.knownBlocks
  g : s'.dag.g = s.dag.g
  pref : ∀ h, (s'.conflictMap.lookup h).map ConflictSet.pref =
    (s.conflictMap.lookup h).map ConflictSet.pref

omit [BlockDigest H] in
theorem Intact.height_iff (intact : s.Intact) (h : BlockHeight) :
    (∃ cs, s.conflictMap.lookup h = some cs) ↔ ∃ hash, (⟨h, hash⟩ : Vertex H) ∈ s.dag.g := by
  constructor
  · rintro ⟨cs, found⟩
    exact ⟨cs.pref, (intact.entered _).mpr ⟨cs, found, (intact.members h cs found).1⟩⟩
  · rintro ⟨hash, member⟩
    obtain ⟨cs, found, _⟩ := (intact.entered _).mp member
    exact ⟨cs, found⟩

theorem Undecided.alike (first : s.Undecided root) (second : s'.Undecided root)
    (known : s'.knownBlocks = s.knownBlocks) : Alike s s' := by
  have g : s'.dag.g = s.dag.g := by
    apply Finmap.ext_lookup
    intro v
    rw [second.edges, first.edges, known]
  refine ⟨known, g, fun h => ?_⟩
  have heights : (∃ cs, s'.conflictMap.lookup h = some cs) ↔
      ∃ cs, s.conflictMap.lookup h = some cs := by
    rw [second.intact.height_iff, first.intact.height_iff, g]
  cases found : s.conflictMap.lookup h with
  | none =>
    cases found' : s'.conflictMap.lookup h with
    | none => rfl
    | some cs' =>
      obtain ⟨cs, here⟩ := heights.mp ⟨cs', found'⟩
      rw [found] at here
      cases here
  | some cs =>
    obtain ⟨cs', found'⟩ := heights.mpr ⟨cs, found⟩
    have conflicts : cs'.conflicts = cs.conflicts := by
      ext hash
      have entered := first.intact.entered ⟨h, hash⟩
      have entered' := second.intact.entered ⟨h, hash⟩
      simp only [found, found', Option.some.injEq, exists_eq_left'] at entered entered'
      rw [← entered, ← entered', g]
    have tied := first.tied h cs found
    have tied' := second.tied h cs' found'
    rw [conflicts] at tied'
    simp [found', tied'.pref.unique tied.pref]

omit [BlockDigest H] in
theorem allPreferred_congr {m m' : ConflictMap H} (pref : ∀ h,
      (m'.lookup h).map ConflictSet.pref = (m.lookup h).map ConflictSet.pref)
    (vxs : List (Vertex H)) : allPreferred m' vxs = allPreferred m vxs := by
  have same : ∀ v : Vertex H, m'.isPreferred v.height v.blockHash =
      m.isPreferred v.height v.blockHash := by
    intro v
    have here := pref v.height
    unfold ConflictMap.isPreferred ConflictMap.getSet
    cases found : m.lookup v.height with
    | none =>
      rw [found, Option.map_none, Option.map_eq_none_iff] at here
      rw [here]
    | some cs =>
      rw [found, Option.map_some] at here
      obtain ⟨cs', found', equal⟩ := Option.map_eq_some_iff.mp here
      simp [found', Except.map, ConflictSet.isPreferred, equal]
  induction vxs with
  | nil => rfl
  | cons v vxs ih => simp only [allPreferred, same v, ih]

omit [BlockDigest H] in
theorem Alike.isStronglyPreferred_eq (alike : Alike s s') (v : Vertex H) :
    s'.isStronglyPreferred v = s.isStronglyPreferred v := by
  rw [isStronglyPreferred, isStronglyPreferred, allPreferred_congr alike.pref, DAG.dfs, DAG.dfs,
    alike.g]

/-- What a query of a block gets: whether the block is new here, and the vote. -/
def answer (order : HailOrder H) (s : Hail H) (block : HailBlock H) : Option (Bool × Bool) :=
  (s.queryBlock order block).map fun r => (r.1, r.2.1)

/-- The vote on a vertex. -/
def verdict (s : Hail H) (v : Vertex H) : Bool :=
  match s.isStronglyPreferred v with
  | .ok outcome => outcome
  | .error _ => false

theorem answer_of_ok {new : Bool} (received : s.onReceiveBlock order block = .ok new t) :
    s.answer order block = some (new, t.verdict block.vertex) := by
  simp only [answer, queryBlock, received, verdict]
  cases t.isStronglyPreferred block.vertex <;> rfl

theorem answer_of_err {e : HailError H} (received : s.onReceiveBlock order block = .err e t) :
    s.answer order block = some (false, t.verdict block.vertex) := by
  simp only [answer, queryBlock, received, verdict]
  cases t.isStronglyPreferred block.vertex <;> rfl

/-- A vertex that is not in the DAG has no ancestry to speak against it. -/
theorem Undecided.verdict_absent (undecided : s.Undecided root) {v : Vertex H}
    (g : t.dag.g = s.dag.g) (absent : v ∉ s.dag.g) : t.verdict v = true := by
  have linked := undecided.intact.dag.transposed.mirrored.toLinked
  have none : t.dag.dfs v = [] := by
    rw [DAG.dfs, g]
    apply List.eq_nil_iff_forall_not_mem.mpr
    exact fun a member => absent (linked.mem_dfs.mp member).1
  simp [verdict, isStronglyPreferred, none, allPreferred]

/-- The block is placed, and has a parent unless it is at height 0. -/
def Fits (s : Hail H) (block : HailBlock H) : Prop :=
  block.hash ∈ s.knownBlocks ∨ block.vertex ∈ s.dag.g ∨
    (block.parent = none → block.vertex.height = 0) ∧
      ∀ p ∈ block.parent, p = block.vertex ∨ p ∈ s.dag.g

omit [LinearOrder H] in
theorem Fits.placed (fits : s.Fits block) : s.Placed block :=
  fits.imp id fun rest => rest.imp id And.right

/-- An undecided node takes the blocks that fit. It refuses the others, and is then asked
about a vertex that it does not have. -/
theorem Undecided.receives (undecided : s.Undecided root) (order : HailOrder H)
    (block : HailBlock H) :
    (s.Fits block ∧
      ∃ t, s.onReceiveBlock order block = .ok (decide (block.hash ∉ s.knownBlocks)) t ∧
        t.knownBlocks = if block.hash ∈ s.knownBlocks then s.knownBlocks
          else s.knownBlocks.insert block.hash block) ∨
    ¬ s.Fits block ∧ block.vertex ∉ s.dag.g ∧
      ∃ e t, s.onReceiveBlock order block = .err e t ∧ t.dag.g = s.dag.g := by
  by_cases known : block.hash ∈ s.knownBlocks
  · refine .inl ⟨.inl known, s, ?_, by simp [known]⟩
    simp [onReceiveBlock, known]
  have received : s.onReceiveBlock order block = (s.insert order block).bind fun _ s =>
      .ok true { s with knownBlocks := s.knownBlocks.insert block.hash block } := if_neg known
  by_cases present : block.vertex ∈ s.dag.g
  · have found : s.insert order block = .ok () s := by simp only [insert, present, if_true]
    rw [found] at received
    refine .inl ⟨.inr (.inl present),
      { s with knownBlocks := s.knownBlocks.insert block.hash block }, ?_, ?_⟩
    · simpa [known] using received
    · simp [known]
  rw [insert_fresh present] at received
  by_cases orphan : block.parent = none ∧ block.vertex.height ≠ 0
  · rw [if_pos orphan] at received
    refine .inr ⟨?_, present, _, s, received, rfl⟩
    rintro (listed | listed | ⟨rooted, _⟩)
    · exact known listed
    · exact present listed
    · exact orphan.2 (rooted orphan.1)
  rw [if_neg orphan] at received
  have rooted : block.parent = none → block.vertex.height = 0 := fun none =>
    by_contra fun above => orphan ⟨none, above⟩
  have transposed := undecided.intact.dag.transposed
  by_cases inside : ∀ p ∈ block.parent, p = block.vertex ∨ p ∈ s.dag.g
  · obtain ⟨d, taken⟩ := DAG.insertVx_taken transposed present
      (fun p listed => inside p (Option.mem_toList.mp listed)) (undecided.chits _)
    rw [taken] at received
    refine .inl ⟨.inr (.inr ⟨rooted, inside⟩), { s with
      conflictMap := s.conflictMap.insertBlock order.hashes block.block, dag := d,
      knownBlocks := s.knownBlocks.insert block.hash block }, ?_, ?_⟩
    · simpa [Outcome.lift, known] using received
    · simp [known]
  · have missing : ¬ ∀ e ∈ block.parent.toList, e ∈ DAG.withEntry block.vertex s.dag.inv := by
      intro entries
      refine inside fun p named => ?_
      have entry := entries p (Option.mem_toList.mpr named)
      exact transposed.mem_withEntry.mp entry
    rw [DAG.insertVx_vacant missing] at received
    refine .inr ⟨fun fits => ?_, present, _, _, received, rfl⟩
    exact fits.placed.elim known fun rest => rest.elim present inside

/-- Undecided nodes with the same blocks answer alike. -/
theorem Undecided.answer_eq (first : s.Undecided root) (second : s'.Undecided root)
    (known : s'.knownBlocks = s.knownBlocks) (order order' : HailOrder H) (block : HailBlock H) :
    s'.answer order' block = s.answer order block := by
  have alike := first.alike second known
  have fit : s'.Fits block ↔ s.Fits block := by
    simp only [Fits, alike.g, known]
  rcases first.receives order block with
    ⟨fits, t, received, stored⟩ | ⟨refused, absent, e, t, received, g⟩
  · rcases second.receives order' block with ⟨fits', t', received', stored'⟩ | ⟨refused', _⟩
    · have next := first.received fits.placed (congrArg Outcome.state? received)
      have next' := second.received fits'.placed (congrArg Outcome.state? received')
      have same := next.alike next' (by rw [stored, stored', known])
      rw [answer_of_ok received, answer_of_ok received', verdict, verdict,
        same.isStronglyPreferred_eq, known]
    · exact absurd (fit.mpr fits) refused'
  · rcases second.receives order' block with ⟨fits', _⟩ | ⟨_, absent', e', t', received', g'⟩
    · exact absurd (fit.mp fits') refused
    · rw [answer_of_err received, answer_of_err received', first.verdict_absent g absent,
        second.verdict_absent g' absent']

omit [BlockDigest H] in
/-- The leaves do not depend on the order of the inverted edges. -/
theorem mem_leaves_iff (intact : s.Intact) (order : HailOrder H) (v : Vertex H) :
    v ∈ s.dag.leaves order.vertices ↔ v ∈ s.dag.g ∧ ∀ c, ¬ s.dag.Parent c v := by
  have transposed := intact.dag.transposed
  rw [DAG.leaves, List.mem_filter, order.vertices.mem, Finmap.mem_keys, ← transposed.keys]
  refine and_congr_right fun present => ?_
  obtain ⟨children, found⟩ := Finmap.mem_iff.mp ((transposed.keys v).mp present)
  have child : ∀ c, s.dag.Parent c v ↔ c ∈ children := by
    intro c
    rw [transposed.edges, DAG.child_iff]
    simp [found]
  simp only [child, found]
  simp [List.eq_nil_iff_forall_not_mem]

theorem Undecided.selectable (undecided : s.Undecided root) : s.Selectable := by
  have transposed := undecided.intact.dag.transposed
  refine ⟨⟨fun v ps found => ?_, transposed.edges, fun v => (transposed.keys v).mp⟩, ?_⟩
  · rw [undecided.edges, parentsBy] at found
    have short : ∀ parent : Option (Vertex H), parent.toList.length ≤ 1 := by
      rintro (_ | p) <;> simp
    split at found
    · cases found
      exact short _
    · obtain ⟨b, _, parents⟩ := Option.bind_eq_some_iff.mp found
      split at parents
      · cases parents
        exact short _
      · cases parents
  · intro v present
    obtain ⟨cs, found, _⟩ := (undecided.intact.entered v).mp present
    exact Finmap.mem_of_lookup_eq_some found

/-- Undecided nodes with the same blocks select the same parents, or panic both. -/
theorem Undecided.selectParent_eq (first : s.Undecided root) (second : s'.Undecided root)
    (known : s'.knownBlocks = s.knownBlocks) (order order' : HailOrder H) (h : BlockHeight) :
    s'.selectParent order' h = s.selectParent order h := by
  have alike := first.alike second known
  have parent : ∀ c v, s'.dag.Parent c v ↔ s.dag.Parent c v := by
    intro c v
    rw [DAG.parent_iff, DAG.parent_iff, alike.g]
  have leaf : ∀ v, v ∈ s'.dag.leaves order'.vertices ↔ v ∈ s.dag.leaves order.vertices := by
    intro v
    rw [mem_leaves_iff first.intact, mem_leaves_iff second.intact, alike.g]
    simp only [parent]
  have walk : ∀ v, s'.dag.dfs v = s.dag.dfs v := by
    intro v
    rw [DAG.dfs, DAG.dfs, alike.g]
  have vertices : ∀ {t : Hail H}, t.Undecided root → t.dag.g.keys ≠ ∅ := by
    intro t undecided empty
    have member := Finmap.mem_keys.mpr undecided.root_mem
    rw [empty] at member
    exact absurd member (Finset.notMem_empty _)
  rcases first.selectable.selectParent_eq (vertices first) order h with
    ⟨v, l, listed, walked, strong, height, selected⟩ | ⟨none, panics⟩
  · rcases second.selectable.selectParent_eq (vertices second) order' h with
      ⟨v', l', _, walked', strong', height', selected'⟩ | ⟨none', _⟩
    · -- both are the preferred vertex of the height
      obtain ⟨cs, found, pref⟩ := first.selectable.preferred (DAG.dfs_mem walked) strong
      obtain ⟨cs', found', pref'⟩ := second.selectable.preferred (DAG.dfs_mem walked') strong'
      have same := alike.pref (h - 1)
      rw [height] at found
      rw [height'] at found'
      rw [found, found', Option.map_some, Option.map_some, pref, pref'] at same
      have equal : v' = v := by
        cases v
        cases v'
        simp only [Vertex.mk.injEq]
        exact ⟨height'.trans height.symm, Option.some.inj same⟩
      rw [selected, selected', equal]
    · rw [← alike.isStronglyPreferred_eq] at strong
      exact absurd height (none' l ((leaf l).mpr listed) v (walk l ▸ walked) strong)
  · rcases second.selectable.selectParent_eq (vertices second) order' h with
      ⟨v', l', listed', walked', strong', height', _⟩ | ⟨_, panics'⟩
    · rw [alike.isStronglyPreferred_eq] at strong'
      exact absurd height' (none l' ((leaf l').mp listed') v' (walk l' ▸ walked') strong')
    · rw [panics, panics']

/-- What a proposal becomes: the block with its parent, and whether it is new. -/
def offer (order : HailOrder H) (s : Hail H) (block : Block H) : Option (Bool × HailBlock H) :=
  (s.generateBlock order block).map fun r => (r.1, r.2.1)

theorem Undecided.offer_eq (first : s.Undecided root) (second : s'.Undecided root)
    (known : s'.knownBlocks = s.knownBlocks) (order order' : HailOrder H) (block : Block H) :
    s'.offer order' block = s.offer order block := by
  unfold offer generateBlock
  rw [first.selectParent_eq second known order order' block.height]
  cases selected : s.selectParent order block.height with
  | none => rfl
  | some r =>
    cases r with
    | error e => rfl
    | ok parent =>
      have alike := first.alike second known
      have inside := (selectParent_spec selected).1
      have fits : ∀ {t : Hail H}, t.dag.g = s.dag.g → t.Fits ⟨some parent, block⟩ := by
        intro t g
        refine .inr (.inr ⟨nofun, fun p named => .inr ?_⟩)
        cases named
        exact g ▸ inside
      rcases first.receives order ⟨some parent, block⟩ with ⟨_, t, received, _⟩ | ⟨refused, _⟩
      · rcases second.receives order' ⟨some parent, block⟩ with
          ⟨_, t', received', _⟩ | ⟨refused', _⟩
        · simp only [received, received', known, Option.map_some]
        · exact absurd (fits alike.g) refused'
      · exact absurd (fits rfl) refused

end Agreement
end Hail

namespace HailActor

/-- A node that has just been told its first block. -/
def Begun (root : HailBlock H) (w : HailActor H) : Prop :=
  ∃ nodeId order msg, msg.lastAcceptedBlock = root ∧
    (started nodeId).step (order, .liveCommittee msg) = some w

/-- No vote is counted, the block that the committee starts from stays the same, and blocks
from outside are placed. -/
def Task.Calm (root : HailBlock H) (s : Hail H) : Task H → Prop
  | .join msg => msg.lastAcceptedBlock = root
  | .receive block => s.Placed block
  | .complete _ acks => s.passes acks = false
  | _ => True

instance (root : HailBlock Digest) (s : Hail Digest) : (t : Task Digest) → Decidable (t.Calm root s)
  | .join msg => inferInstanceAs (Decidable (msg.lastAcceptedBlock = root))
  | .receive block => inferInstanceAs (Decidable (s.Placed block))
  | .complete _ acks => inferInstanceAs (Decidable (s.passes acks = false))
  | .generate _ | .propose _ | .idle => isTrue trivial

def Calm (root : HailBlock H) (w : HailActor H) (x : HailOrder H × HailEvent H) : Prop :=
  (w.task x.2).Calm root w.hail

theorem Begun.undecided (begun : Begun root w) : w.hail.Undecided root := by
  obtain ⟨nodeId, order, msg, rfl, taken⟩ := begun
  obtain ⟨s, joined, rfl⟩ := Option.map_eq_some_iff.mp taken
  obtain ⟨⟨_, t⟩, inserted, rfl⟩ := Option.map_eq_some_iff.mp joined
  have done := Outcome.unwrap_eq_some.mp inserted
  have intact : t.Intact := by
    refine Hail.Intact.insert ?_ done
    exact (Intact.started nodeId).hail.of_same rfl rfl
  have same := Hail.insert_known (congrArg Outcome.state? done)
  rcases Hail.insert_ok done with rfl | ⟨ins, map⟩
  · exact absurd (Hail.insert_vertex done) Finmap.notMem_empty
  · refine ⟨intact, fun v => ?_, fun h cs found => ?_, fun v => ?_⟩
    · rw [ins.chits, HashMap.lookup_insert_ite]
      split
      · simp
      · exact fun one => absurd (Finmap.mem_of_lookup_eq_some one) Finmap.notMem_empty
    · rw [map] at found
      refine Hail.tied_insertBlock order.hashes (fun h cs known => ?_) h cs found
      exact absurd (Finmap.mem_of_lookup_eq_some known) Finmap.notMem_empty
    · rw [ins.g, same, HashMap.lookup_insert_ite, Hail.parentsBy]
      by_cases first : v = msg.lastAcceptedBlock.vertex
      · rw [if_pos first, if_pos first]
      · rw [if_neg first, if_neg first]
        rfl

theorem undecided_step {w w' : HailActor H} {t : Task H} (undecided : w.hail.Undecided root)
    (calm : t.Calm root w.hail) (does : Does order w t w') : w'.hail.Undecided root := by
  cases does with
  | @join msg s ms qs joined =>
    -- the block is there already
    obtain ⟨⟨_, u⟩, inserted, rfl⟩ := Option.map_eq_some_iff.mp joined
    have done := Outcome.unwrap_eq_some.mp inserted
    obtain rfl : msg.lastAcceptedBlock = root := calm
    rcases Hail.insert_ok done with rfl | ⟨ins, _⟩
    · exact undecided.of_same rfl rfl rfl
    · exact absurd undecided.root_mem ins.fresh
  | receive ms qs received =>
    exact undecided.received calm (Hail.queryBlock_cases received).1
  | generate ms qs generated =>
    obtain ⟨parent, selected, left⟩ := Hail.generateBlock_cases generated
    refine undecided.received (.inr (.inr fun p named => .inr ?_)) left
    cases named
    exact (Hail.selectParent_spec selected).1
  | propose ms qs proposed =>
    rcases Hail.acceptedCells_cases proposed with ⟨_, rfl⟩ | ⟨_, rfl, _⟩
    · exact undecided
    · exact undecided.of_same rfl rfl rfl
  | pass ms qs passes _ =>
    have fails := calm.symm.trans passes
    cases fails
  | fail => exact undecided.of_same rfl rfl rfl
  | idle => exact undecided

theorem undecided_run {u w : HailActor H} (begun : Begun root u)
    {steps : List (HailActor H × HailOrder H × HailEvent H)} (run : Run step u steps w)
    (calm : Meets (Calm root) steps) : w.hail.Undecided root :=
  run.invariant (Calm root) calm (fun w => w.hail.Undecided root) begun.undecided
    fun _ _ _ undecided calm taken => undecided_step undecided calm (step_does taken)

/-- Until a query succeeds, nodes that started from the same block and know the same blocks
answer every query alike and put every proposal on the same parent. The order in which they
got the blocks, and who generated them, makes no difference. -/
theorem same_blocks_agree {root : HailBlock H} {u w u' w' : HailActor H}
    (begun : Begun root u) (begun' : Begun root u')
    {steps steps' : List (HailActor H × HailOrder H × HailEvent H)}
    (run : Run step u steps w) (run' : Run step u' steps' w')
    (calm : Meets (Calm root) steps) (calm' : Meets (Calm root) steps')
    (known : w'.hail.knownBlocks = w.hail.knownBlocks) (order order' : HailOrder H) :
    (∀ block, w'.hail.answer order' block = w.hail.answer order block) ∧
      ∀ block, w'.hail.offer order' block = w.hail.offer order block := by
  have first := undecided_run begun run calm
  have second := undecided_run begun' run' calm'
  exact ⟨first.answer_eq second known order order', first.offer_eq second known order order'⟩

/-- The sample node once it has joined with genesis. -/
def begun : HailActor Digest := (sample.step (ascendingVertices, joins 0)).getD sample

/-- Two blocks on genesis, in the given order. -/
def siblings (first second : Nat) :
    Option (List (HailActor Digest × HailOrder Digest × HailEvent Digest) × HailActor Digest) :=
  exec step begun ([first, second].map fun n =>
    (ascendingVertices, .queryBlock (child genesis 1 n)))

/-- Two blocks on genesis reach two nodes in different orders. -/
theorem same_blocks_agree_siblings :
    ∃ (w w' : HailActor Digest)
      (steps steps' : List (HailActor Digest × HailOrder Digest × HailEvent Digest)),
      Run step begun steps w ∧ Run step begun steps' w' ∧
      w.votes.map BlockVote.block ≠ w'.votes.map BlockVote.block ∧
      ∀ order order', (∀ block, w'.hail.answer order' block = w.hail.answer order block) ∧
        ∀ block, w'.hail.offer order' block = w.hail.offer order block := by
  have joined : (sample.step (ascendingVertices, joins 0)).isSome = true := by decide +kernel
  obtain ⟨u, taken⟩ := Option.isSome_iff_exists.mp joined
  have same : begun = u := by simp [begun, taken]
  have start : Begun genesis begun := ⟨⟨0⟩, ascendingVertices, _, rfl, same ▸ taken⟩
  have found : (siblings 0 1).any (fun r => (siblings 1 0).any fun r' => decide (
      r.2.votes.map BlockVote.block ≠ r'.2.votes.map BlockVote.block ∧
      (∀ x ∈ r.1, (x.1.task x.2.2).Calm genesis x.1.hail) ∧
      (∀ x ∈ r'.1, (x.1.task x.2.2).Calm genesis x.1.hail) ∧
      r'.2.hail.knownBlocks = r.2.hail.knownBlocks)) = true := by decide +kernel
  obtain ⟨steps, w, run, found⟩ := exec_any found
  obtain ⟨steps', w', run', found⟩ := exec_any found
  obtain ⟨differ, calm, calm', known⟩ := of_decide_eq_true found
  exact ⟨w, w', steps, steps', run, run', differ,
    same_blocks_agree start start run run' calm calm' known⟩

end HailActor
end Subzero
