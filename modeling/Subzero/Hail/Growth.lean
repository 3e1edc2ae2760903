import Mathlib.Order.Interval.Finset.Nat
import Subzero.Hail.Ancestry
import Subzero.Hail.Sample

/-! A chain of blocks that grows without forks, with a successful query for every
block. The conviction of genesis is the number of queries, so the chain can have as
many blocks as a `u8` can count. -/
namespace Subzero.Hail
variable {H : Type} [LinearOrder H] [BlockDigest H] [Sortition H]
variable {k : Nat} {d : DAG (Vertex H)} {order : HailOrder H} {block : HailBlock H}
  {m : ConflictMap H} {vxs : List (Vertex H)} {s' : Hail H}

/-- Blocks on top of genesis: their heights count up from zero, and each names the
one before it as its parent. -/
structure Chain (n : Nat) (blocks : Nat → HailBlock H) : Prop where
  genesis : (blocks 0).parent = none
  parent : ∀ k < n, (blocks (k + 1)).parent = some (blocks k).vertex
  height : ∀ k ≤ n, (blocks k).vertex.height.toNat = k

/-- A node in the course of the growth, with the numbers of blocks that it has
received and whose queries it has completed. -/
structure Progress (H : Type) where
  hail : Hail H
  received : Nat
  completed : Nat

inductive Growth where
  | receive
  | complete

/-- The next block is inserted, or the next query succeeds. Blocks are received in
order and queries complete in order, but the two may interleave in any way. -/
def Progress.grow (n : Nat) (blocks : Nat → HailBlock H) (p : Progress H) :
    HailOrder H × Growth → Option (Progress H)
  | (order, .receive) =>
    if p.received < n then
      (p.hail.insert order (blocks (p.received + 1))).unwrap.map fun (_, s) =>
        ⟨s, p.received + 1, p.completed⟩
    else none
  | (order, .complete) =>
    if p.completed < p.received then
      (p.hail.passQuery order (blocks (p.completed + 1))).map fun (_, s) =>
        ⟨s, p.received, p.completed + 1⟩
    else none

/-- The votes that the block at position `k` has after `j` queries: one for every
queried block from it upwards. -/
def votesAbove (j k : Nat) : Nat := j + 1 - max k 1

/-- The state after `i` blocks have been received and `j` queries completed. -/
structure Grown (blocks : Nat → HailBlock H) (i j : Nat) (s : Hail H) : Prop where
  mirrored : s.dag.Mirrored
  keys : ∀ v, v ∈ s.dag.g ↔ ∃ k ≤ i, v = (blocks k).vertex
  bottom : ∀ p, ¬ s.dag.Parent (blocks 0).vertex p
  edges : ∀ k < i, ∀ p, s.dag.Parent (blocks (k + 1)).vertex p ↔ p = (blocks k).vertex
  chits : ∀ k ≤ i, s.dag.chits.lookup (blocks k).vertex = some (if 1 ≤ k ∧ k ≤ j then 1 else 0)
  only : ∀ v ∈ s.dag.chits, v ∈ s.dag.g
  sets : ∀ k ≤ i, s.conflictMap.lookup (blocks k).vertex.height = some
    ⟨{(blocks k).hash}, (blocks k).hash, (blocks k).hash, votesAbove j k⟩
  heights : ∀ h ∈ s.conflictMap, ∃ k ≤ i, h = (blocks k).vertex.height

section
variable {blocks : Nat → HailBlock H} {n i j : Nat} {s : Hail H}

omit [LinearOrder H] [Sortition H] in
theorem Chain.vertex_inj (chain : Chain n blocks) {k m : Nat} (hk : k ≤ n) (hm : m ≤ n)
    (same : (blocks k).vertex = (blocks m).vertex) : k = m := by
  rw [← chain.height k hk, ← chain.height m hm, same]

omit [LinearOrder H] [Sortition H] in
theorem Chain.height_ne (chain : Chain n blocks) {k m : Nat} (hk : k ≤ n) (hm : m ≤ n)
    (other : k ≠ m) : (blocks k).vertex.height ≠ (blocks m).vertex.height := by
  intro same
  apply other
  rw [← chain.height k hk, ← chain.height m hm, same]

omit [Sortition H] in
theorem Grown.ancestor_iff (grown : Grown blocks i j s) (hk : k ≤ i) {a : Vertex H} :
    s.dag.Ancestor (blocks k).vertex a ↔ ∃ m ≤ k, a = (blocks m).vertex := by
  constructor
  · intro path
    induction path with
    | refl => exact ⟨k, Nat.le_refl k, rfl⟩
    | tail _ edge ih =>
      obtain ⟨m, hm, rfl⟩ := ih
      cases m with
      | zero => exact absurd edge (grown.bottom _)
      | succ m => exact ⟨m, by omega, (grown.edges m (by omega) _).mp edge⟩
  · rintro ⟨m, hm, rfl⟩
    induction k with
    | zero =>
      obtain rfl : m = 0 := by omega
      exact .refl
    | succ k ih =>
      rcases Nat.lt_or_ge m (k + 1) with less | more
      · exact .head ((grown.edges k (by omega) _).mpr rfl) (ih (by omega) (by omega))
      · obtain rfl : m = k + 1 := by omega
        exact .refl

omit [Sortition H] in
theorem Grown.progeny_eq (chain : Chain n blocks) (hi : i ≤ n) (grown : Grown blocks i j s)
    (hk : k ≤ i) :
    s.dag.progeny (blocks k).vertex = (Finset.Icc k i).image fun m => (blocks m).vertex := by
  have present : (blocks k).vertex ∈ s.dag.g := (grown.keys _).mpr ⟨k, hk, rfl⟩
  ext x
  rw [grown.mirrored.mem_progeny_iff present, Finset.mem_image]
  constructor
  · intro path
    have inside : x ∈ s.dag.g := by
      rcases path.cases_head with rfl | ⟨_, edge, _⟩
      · exact present
      · exact edge.mem
    obtain ⟨m, hm, rfl⟩ := (grown.keys x).mp inside
    obtain ⟨l, hl, same⟩ := (grown.ancestor_iff hm).mp path
    obtain rfl := chain.vertex_inj (by omega) (by omega) same
    exact ⟨m, Finset.mem_Icc.mpr ⟨hl, hm⟩, rfl⟩
  · rintro ⟨m, range, rfl⟩
    rw [Finset.mem_Icc] at range
    exact (grown.ancestor_iff range.2).mpr ⟨k, range.1, rfl⟩

omit [Sortition H] in
theorem Grown.weight_eq (chain : Chain n blocks) (hi : i ≤ n) (grown : Grown blocks i j s)
    (hj : j ≤ i) (hk : k ≤ i) : s.dag.weight (blocks k).vertex = votesAbove j k := by
  have inj : Set.InjOn (fun m => (blocks m).vertex) (Finset.Icc k i) := by
    intro a ha b hb same
    rw [Finset.mem_coe, Finset.mem_Icc] at ha hb
    exact chain.vertex_inj (by omega) (by omega) same
  have bits : ∀ m ∈ Finset.Icc k i,
      s.dag.chitOf (blocks m).vertex = if 1 ≤ m ∧ m ≤ j then 1 else 0 := by
    intro m range
    rw [Finset.mem_Icc] at range
    simp [DAG.chitOf, grown.chits m range.2]
  rw [DAG.weight, grown.progeny_eq chain hi hk, Finset.sum_image inj, Finset.sum_congr rfl bits,
    ← Finset.sum_filter, ← Finset.card_eq_sum_ones]
  have same : {m ∈ Finset.Icc k i | 1 ≤ m ∧ m ≤ j} = Finset.Icc (max k 1) j := by
    ext m
    simp only [Finset.mem_filter, Finset.mem_Icc]
    omega
  rw [same, Nat.card_Icc, votesAbove]

omit [LinearOrder H] [BlockDigest H] [Sortition H] in
theorem votesAbove_succ (j k : Nat) :
    votesAbove (j + 1) k = votesAbove j k + if k ≤ j + 1 then 1 else 0 := by
  unfold votesAbove
  split <;> omega

omit [Sortition H] in
theorem Grown.alone (grown : Grown blocks i j s) (hk : k ≤ i) :
    s.conflictMap.AloneIn (blocks k).vertex
      ⟨{(blocks k).hash}, (blocks k).hash, (blocks k).hash, votesAbove j k⟩ :=
  ⟨grown.sets k hk, rfl⟩

omit [Sortition H] in
theorem Grown.mem_dfs (chain : Chain n blocks) (hi : i ≤ n) (grown : Grown blocks i j s)
    {k m : Nat} (hk : k ≤ i) (hm : m ≤ i) :
    (blocks m).vertex ∈ s.dag.dfs (blocks k).vertex ↔ m ≤ k := by
  rw [grown.mirrored.toLinked.mem_dfs, grown.ancestor_iff hk]
  constructor
  · rintro ⟨_, l, hl, same⟩
    obtain rfl := chain.vertex_inj (by omega) (by omega) same
    exact hl
  · exact fun less => ⟨(grown.keys _).mpr ⟨k, hk, rfl⟩, m, less, rfl⟩

omit [Sortition H] in
theorem Grown.dfs_chain (grown : Grown blocks i j s) (hk : k ≤ i) {v : Vertex H}
    (member : v ∈ s.dag.dfs (blocks k).vertex) : ∃ m ≤ k, v = (blocks m).vertex :=
  (grown.ancestor_iff hk).mp (grown.mirrored.toLinked.mem_dfs.mp member).2

omit [Sortition H] in
/-- The chit of the next block is set. -/
theorem Grown.chits_set (chain : Chain n blocks) (hi : i ≤ n) (grown : Grown blocks i j s)
    (hj : j < i) (hk : k ≤ i) :
    (s.dag.chits.insert (blocks (j + 1)).vertex 1).lookup (blocks k).vertex =
      some (if 1 ≤ k ∧ k ≤ j + 1 then 1 else 0) := by
  rw [HashMap.lookup_insert_ite]
  by_cases here : k = j + 1
  · subst here
    rw [if_pos rfl, if_pos (by omega)]
  · have other : (blocks k).vertex ≠ (blocks (j + 1)).vertex :=
      fun same => here (chain.vertex_inj (by omega) (by omega) same)
    rw [if_neg other, grown.chits k hk]
    by_cases old : 1 ≤ k ∧ k ≤ j
    · rw [if_pos old, if_pos (by omega)]
    · rw [if_neg old, if_neg (by omega)]

omit [Sortition H] in
/-- No other vote goes to the height of a block, so its counter is exact. -/
theorem Grown.sets_voted (chain : Chain n blocks) (hi : i ≤ n) (grown : Grown blocks i j s)
    (hj : j < i) (small : j + 1 < 2 ^ 8)
    (tally : Tally d (s.dag.dfs (blocks (j + 1)).vertex) s.conflictMap m) (hk : k ≤ i) :
    m.lookup (blocks k).vertex.height = some
      ⟨{(blocks k).hash}, (blocks k).hash, (blocks k).hash, votesAbove (j + 1) k⟩ := by
  have only : ∀ v ∈ s.dag.dfs (blocks (j + 1)).vertex,
      v.height = (blocks k).vertex.height → v = (blocks k).vertex := by
    intro v member same
    obtain ⟨m, hm, rfl⟩ := grown.dfs_chain hj member
    by_contra other
    exact chain.height_ne (by omega) (by omega) (fun eq => other (by rw [eq])) same
  have room : votesAbove j k + 1 < 2 ^ 8 := by
    unfold votesAbove
    omega
  have after := tally.alone (grown.mirrored.toLinked.dfs_nodup _) (grown.alone hk) ⟨rfl, rfl⟩
    only fun _ => room
  rw [after.1, votesAbove_succ]
  simp only [grown.mem_dfs chain hi hj hk]

omit [Sortition H] in
theorem Grown.heights_voted (grown : Grown blocks i j s) (tally : Tally d vxs s.conflictMap m) :
    ∀ h ∈ m, ∃ k ≤ i, h = (blocks k).vertex.height := by
  intro h member
  have same := tally.conflicts h
  obtain ⟨cs', found⟩ := Finmap.mem_iff.mp member
  rw [found, Option.map_some] at same
  obtain ⟨cs, found, _⟩ := Option.map_eq_some_iff.mp same.symm
  exact grown.heights h (Finmap.mem_of_lookup_eq_some found)

theorem Grown.completed (chain : Chain n blocks) (hi : i ≤ n) (grown : Grown blocks i j s)
    (hj : j < i) (small : j + 1 < 2 ^ 8) {accepted : Option (Vertex H)}
    (passed : s.passQuery order (blocks (j + 1)) = some (accepted, s')) :
    Grown blocks i (j + 1) s' := by
  have votes := (passQuery_votes passed).1
  obtain ⟨g, inv⟩ := DAG.setChit_edges (congrArg Outcome.state? votes.chit)
  have parent : ∀ v p, s'.dag.Parent v p ↔ s.dag.Parent v p := fun v p => by
    rw [DAG.parent_iff, DAG.parent_iff, g]
  have chits : s'.dag.chits = s.dag.chits.insert (blocks (j + 1)).vertex 1 := by
    have unset := grown.chits (j + 1) hj
    have done := votes.chit
    rw [if_neg (by omega)] at unset
    simp only [DAG.setChit, unset, Nat.zero_ne_one, if_false, Outcome.ok.injEq] at done
    rw [← done.2]
  have tally := votes.tally
  rw [setChit_dfs votes.chit] at tally
  constructor
  · exact grown.mirrored.of_edges g inv
  · intro v
    rw [g]
    exact grown.keys v
  · exact fun p edge => grown.bottom p ((parent _ _).mp edge)
  · exact fun k hk p => (parent _ _).trans (grown.edges k hk p)
  · intro k hk
    rw [chits]
    exact grown.chits_set chain hi hj hk
  · intro v member
    rw [chits, Finmap.mem_insert] at member
    rw [g]
    rcases member with rfl | member
    · exact (grown.keys _).mpr ⟨j + 1, hj, rfl⟩
    · exact grown.only v member
  · exact fun k hk => grown.sets_voted chain hi hj small tally hk
  · exact grown.heights_voted tally

omit [BlockDigest H] [Sortition H] in
/-- Votes can be counted if every vertex is preferred at its height and has a
conviction. -/
theorem tally_exists (convictions : ∀ v ∈ vxs, ∃ c, d.conviction v = some (.ok c))
    (preferred : ∀ v ∈ vxs, ∃ cs, m.lookup v.height = some cs ∧ cs.pref = v.blockHash) :
    ∃ m', Tally d vxs m m' := by
  induction vxs generalizing m with
  | nil => exact ⟨m, .done⟩
  | cons v vxs ih =>
    obtain ⟨c, computed⟩ := convictions v List.mem_cons_self
    obtain ⟨cs, found, pref⟩ := preferred v List.mem_cons_self
    have kept : (cs.voteFor v.blockHash c c).pref = cs.pref := by
      unfold ConflictSet.voteFor
      simp only [gt_iff_lt, Nat.lt_irrefl, if_false]
      split <;> rfl
    obtain ⟨m', tally⟩ := ih (m := m.insert v.height (cs.voteFor v.blockHash c c))
      (fun x listed => convictions x (List.mem_cons_of_mem v listed)) fun x listed => by
        obtain ⟨set, known, own⟩ := preferred x (List.mem_cons_of_mem v listed)
        rw [HashMap.lookup_insert_ite]
        by_cases here : x.height = v.height
        · rw [here, found] at known
          cases known
          exact ⟨_, if_pos here, kept.trans own⟩
        · exact ⟨set, by rw [if_neg here]; exact known, own⟩
    exact ⟨m', .vote found computed (by rw [pref]; exact computed) tally⟩

omit [BlockDigest H] [Sortition H] in
theorem isAcceptedBlock_total {s : Hail H} {v : Vertex H} (known : v.height ∈ s.conflictMap) :
    ∃ b, s.isAcceptedBlock v = .ok b := by
  obtain ⟨cs, found⟩ := Finmap.mem_iff.mp known
  exact ⟨_, isAcceptedBlock_ok.mpr ⟨cs, found, rfl⟩⟩

omit [BlockDigest H] [Sortition H] in
theorem allAccepted_total {s : Hail H} (known : ∀ v ∈ vxs, v.height ∈ s.conflictMap) :
    ∃ b, s.allAccepted vxs = .ok b := by
  induction vxs with
  | nil => exact ⟨true, rfl⟩
  | cons v vxs ih =>
    obtain ⟨b, decided⟩ := isAcceptedBlock_total (known v List.mem_cons_self)
    unfold allAccepted
    cases b with
    | false => exact ⟨false, by rw [decided]⟩
    | true =>
      rw [decided]
      exact ih fun x listed => known x (List.mem_cons_of_mem v listed)

omit [BlockDigest H] [Sortition H] in
theorem firstAccepted_total {s : Hail H} (present : ∀ v ∈ vxs, v ∈ s.dag.g)
    (known : ∀ v ∈ vxs, v.height ∈ s.conflictMap)
    (parents : ∀ v ∈ vxs, ∀ p, s.dag.Parent v p → p.height ∈ s.conflictMap) :
    ∃ r, s.firstAccepted vxs = .ok r := by
  induction vxs with
  | nil => exact ⟨none, rfl⟩
  | cons v vxs ih =>
    obtain ⟨es, found⟩ := Finmap.mem_iff.mp (present v List.mem_cons_self)
    obtain ⟨all, decided⟩ := allAccepted_total fun p listed =>
      parents v List.mem_cons_self p ⟨es, found, listed⟩
    obtain ⟨own, decided'⟩ := isAcceptedBlock_total (known v List.mem_cons_self)
    obtain ⟨r, rest⟩ := ih (fun x h => present x (List.mem_cons_of_mem v h))
      (fun x h => known x (List.mem_cons_of_mem v h))
      (fun x h => parents x (List.mem_cons_of_mem v h))
    unfold firstAccepted isAccepted
    simp only [found, decided, decided', rest]
    split
    · exact ⟨r, rfl⟩
    · cases all <;> cases own <;> exact ⟨_, rfl⟩

/-- A query that got the votes succeeds if nothing fails in counting them. -/
theorem passQuery_total {s : Hail H} (chit : s.dag.setChit block.vertex 1 = .ok () d)
    (tally : Tally d (d.dfs block.vertex) s.conflictMap m)
    (looked : ∀ t : Hail H, t.dag = d → t.conflictMap = m → ∃ r, t.firstAccepted (d.dfs
      block.vertex) = .ok r) : ∃ accepted s', s.passQuery order block = some (accepted, s') := by
  have updated : ({ s with dag := d }.updateAncestralPreference block.vertex).unwrap =
      some ((), { s with dag := d, conflictMap := m }) :=
    Outcome.unwrap_eq_some.mpr (forEach_tally.mpr ⟨m, tally, rfl⟩)
  obtain ⟨r, first⟩ := looked ({ s with dag := d, conflictMap := m }.advance order block) rfl rfl
  unfold passQuery nextAcceptedVertex
  rw [Outcome.unwrap_eq_some.mpr chit]
  simp only [updated]
  change ∃ accepted s', ((firstAccepted _ (d.dfs block.vertex)).map _).toOption =
    some (accepted, s')
  rw [first]
  exact ⟨_, _, rfl⟩

omit [Sortition H] in
/-- With the chit of the next block set, the convictions are the numbers of votes. -/
theorem Grown.conviction (chain : Chain n blocks) (hi : i ≤ n) (grown : Grown blocks i j s)
    (hj : j < i) (chit : s.dag.setChit (blocks (j + 1)).vertex 1 = .ok () d) (hk : k ≤ j + 1) :
    d.conviction (blocks k).vertex = some (if votesAbove (j + 1) k < 2 ^ 8 then
      .ok (votesAbove (j + 1) k) else .error .chitOverflow) := by
  obtain ⟨g, inv⟩ := DAG.setChit_edges (congrArg Outcome.state? chit)
  have mirrored := grown.mirrored.of_edges g inv
  have bits : ∀ v c, s.dag.chits.lookup v = some c → c ≤ 1 := by
    intro v c found
    obtain ⟨m, hm, rfl⟩ := (grown.keys v).mp (grown.only v (Finmap.mem_of_lookup_eq_some found))
    rw [grown.chits m hm] at found
    cases found
    split <;> omega
  have inside : (blocks k).vertex ∈ s.dag.g := (grown.keys _).mpr ⟨k, by omega, rfl⟩
  have root : (blocks (j + 1)).vertex ∈ s.dag.progeny (blocks k).vertex :=
    (grown.mirrored.mem_progeny_iff inside).mpr ((grown.ancestor_iff hj).mpr ⟨k, hk, rfl⟩)
  have weight : d.weight (blocks k).vertex = votesAbove (j + 1) k := by
    rw [DAG.weight_setChit bits chit, if_pos root, votesAbove_succ, if_pos hk,
      grown.weight_eq chain hi (by omega) (by omega)]
  have chits := (DAG.setChit_one bits chit).1
  rw [mirrored.conviction_eq (mirrored.entry _ (g ▸ inside)) fun x member => ?_, weight]
  have listed : x ∈ d.g := mirrored.progeny_mem (g ▸ inside) member
  rw [g] at listed
  obtain ⟨m, hm, rfl⟩ := (grown.keys x).mp listed
  rw [chits, Finmap.mem_insert]
  exact .inr (Finmap.mem_of_lookup_eq_some (grown.chits m hm))

omit [Sortition H] in
theorem Grown.chit (grown : Grown blocks i j s) (hj : j < i) :
    ∃ d, s.dag.setChit (blocks (j + 1)).vertex 1 = .ok () d := by
  have unset := grown.chits (j + 1) hj
  rw [if_neg (by omega)] at unset
  exact ⟨_, by simp [DAG.setChit, unset]; rfl⟩

/-- A query succeeds as long as the number of queries fits a `u8`. -/
theorem Grown.complete (chain : Chain n blocks) (hi : i ≤ n) (grown : Grown blocks i j s)
    (hj : j < i) (small : j + 1 < 2 ^ 8) (order : HailOrder H) :
    ∃ accepted s', s.passQuery order (blocks (j + 1)) = some (accepted, s') := by
  obtain ⟨d, chit⟩ := grown.chit hj
  obtain ⟨g, _⟩ := DAG.setChit_edges (congrArg Outcome.state? chit)
  have member : ∀ v ∈ d.dfs (blocks (j + 1)).vertex, ∃ m ≤ j + 1, v = (blocks m).vertex := by
    intro v listed
    rw [setChit_dfs chit] at listed
    exact grown.dfs_chain hj listed
  obtain ⟨m, tally⟩ := tally_exists (m := s.conflictMap)
    (fun v listed => by
      obtain ⟨k, hk, rfl⟩ := member v listed
      have few : votesAbove (j + 1) k < 2 ^ 8 := by
        unfold votesAbove
        omega
      exact ⟨_, by rw [grown.conviction chain hi hj chit hk, if_pos few]⟩)
    (fun v listed => by
      obtain ⟨k, hk, rfl⟩ := member v listed
      exact ⟨_, grown.sets k (by omega), rfl⟩)
  have known : ∀ k ≤ i, (blocks k).vertex.height ∈ m := fun k hk =>
    tally.mem_iff.mpr (Finmap.mem_of_lookup_eq_some (grown.sets k hk))
  refine passQuery_total chit tally fun t dag map => firstAccepted_total ?_ ?_ ?_
  · intro v listed
    obtain ⟨k, hk, rfl⟩ := member v listed
    rw [dag, g]
    exact (grown.keys _).mpr ⟨k, by omega, rfl⟩
  · intro v listed
    obtain ⟨k, hk, rfl⟩ := member v listed
    rw [map]
    exact known k (by omega)
  · intro v listed p edge
    obtain ⟨k, hk, rfl⟩ := member v listed
    have edge : s.dag.Parent (blocks k).vertex p := by
      rw [DAG.parent_iff, dag, g] at edge
      exact DAG.parent_iff.mpr edge
    obtain ⟨l, hl, rfl⟩ := (grown.ancestor_iff (by omega)).mp (.single edge)
    rw [map]
    exact known l (by omega)

omit [Sortition H] in
theorem insert_adds (order : HailOrder H) {s : Hail H} {block : HailBlock H}
    (fresh : block.vertex ∉ s.dag.g) (unset : block.vertex ∉ s.dag.chits)
    (known : ∀ p ∈ block.parent, p ∈ s.dag.inv)
    (rooted : block.parent = none → block.vertex.height = 0) :
    ∃ s', s.insert order block = .ok () s' ∧ Adds order block s s' := by
  obtain ⟨d, put⟩ := DAG.insertVx_fresh fresh unset known
  have inserted : s.insert order block = .ok ()
      { s with conflictMap := s.conflictMap.insertBlock order.hashes block.block, dag := d } := by
    unfold insert
    rw [if_neg fresh]
    cases named : block.parent with
    | some parent =>
      rw [named] at put
      exact Outcome.lift_eq_ok.mpr ⟨d, put, rfl⟩
    | none =>
      rw [named] at put
      simp only [rooted named, if_true]
      exact Outcome.lift_eq_ok.mpr ⟨d, put, rfl⟩
  exact ⟨_, inserted, fresh, rooted, rfl, congrArg Outcome.state? put, rfl⟩

/-- What the insertion of a block does that is the first of its height: a vertex with
its edge and no chit, and a conflict set of its own. -/
structure Lands (block : HailBlock H) (s s' : Hail H) : Prop where
  mirrored : s'.dag.Mirrored
  mem : ∀ v, v ∈ s'.dag.g ↔ v = block.vertex ∨ v ∈ s.dag.g
  edge : ∀ v p, s'.dag.Parent v p ↔ s.dag.Parent v p ∨ v = block.vertex ∧ p ∈ block.parent
  chits : ∀ v, s'.dag.chits.lookup v =
    if v = block.vertex then some 0 else s.dag.chits.lookup v
  sets : ∀ h, s'.conflictMap.lookup h =
    if h = block.vertex.height then some (.new block.hash) else s.conflictMap.lookup h

omit [Sortition H] in
theorem Adds.lands {s s' : Hail H} (adds : Adds order block s s') (mirrored : s.dag.Mirrored)
    (unset : block.vertex ∉ s.dag.chits) (known : ∀ p ∈ block.parent, p ∈ s.dag.g)
    (first : block.vertex.height ∉ s.conflictMap) : Lands block s s' := by
  obtain ⟨_, ⟨taken, _⟩ | refused⟩ := DAG.insertVx_option adds.fresh adds.dag
  case inr =>
    obtain ⟨p, named, unknown, _⟩ := refused.unknown
    exact absurd (mirrored.entry p (known p named)) unknown
  constructor
  · exact mirrored.insertVx adds.fresh (fun p named _ => .inl (known p named)) adds.dag
  · intro v
    rw [taken.g, Finmap.mem_insert]
  · exact taken.edge adds.fresh
  · intro v
    split
    · rename_i here
      subst here
      rcases taken.own with ⟨set, _⟩ | zero
      · exact absurd (Finmap.mem_of_lookup_eq_some set) unset
      · exact zero
    · rename_i other
      exact taken.chits v other
  · intro h
    have absent : s.conflictMap.lookup block.block.height = none :=
      Finmap.lookup_eq_none.mpr first
    rw [adds.map, ConflictMap.insertBlock_lookup, absent]
    rfl

omit [Sortition H] in
theorem Lands.only {s s' : Hail H} (lands : Lands block s s')
    (only : ∀ v ∈ s.dag.chits, v ∈ s.dag.g) : ∀ v ∈ s'.dag.chits, v ∈ s'.dag.g := by
  intro v member
  rw [lands.mem]
  obtain ⟨c, found⟩ := Finmap.mem_iff.mp member
  rw [lands.chits] at found
  split at found
  · rename_i here
    exact .inl here
  · exact .inr (only v (Finmap.mem_of_lookup_eq_some found))

omit [Sortition H] in
theorem Lands.height {s s' : Hail H} (lands : Lands block s s') {h : BlockHeight}
    (member : h ∈ s'.conflictMap) : h = block.vertex.height ∨ h ∈ s.conflictMap := by
  obtain ⟨cs, found⟩ := Finmap.mem_iff.mp member
  rw [lands.sets] at found
  split at found
  · rename_i here
    exact .inl here
  · exact .inr (Finmap.mem_of_lookup_eq_some found)

omit [Sortition H] in
theorem Grown.lands (chain : Chain n blocks) (hi : i < n) (grown : Grown blocks i j s)
    (order : HailOrder H) :
    ∃ s', s.insert order (blocks (i + 1)) = .ok () s' ∧ Lands (blocks (i + 1)) s s' := by
  have fresh : (blocks (i + 1)).vertex ∉ s.dag.g := fun member => by
    obtain ⟨k, hk, same⟩ := (grown.keys _).mp member
    have := chain.vertex_inj (by omega) (by omega) same
    omega
  have unset : (blocks (i + 1)).vertex ∉ s.dag.chits := fun member => fresh (grown.only _ member)
  have known : ∀ p ∈ (blocks (i + 1)).parent, p ∈ s.dag.g := fun p named => by
    rw [chain.parent i hi, Option.mem_some_iff] at named
    exact (grown.keys p).mpr ⟨i, Nat.le_refl i, named.symm⟩
  have first : (blocks (i + 1)).vertex.height ∉ s.conflictMap := fun member => by
    obtain ⟨k, hk, same⟩ := grown.heights _ member
    exact chain.height_ne (by omega) (by omega) (by omega) same
  obtain ⟨s', inserted, adds⟩ := insert_adds order fresh unset
    (fun p named => grown.mirrored.entry p (known p named)) (by simp [chain.parent i hi])
  exact ⟨s', inserted, adds.lands grown.mirrored unset known first⟩

omit [Sortition H] in
theorem Grown.receive (chain : Chain n blocks) (hi : i < n) (grown : Grown blocks i j s)
    (hj : j ≤ i) (order : HailOrder H) :
    ∃ s', s.insert order (blocks (i + 1)) = .ok () s' ∧ Grown blocks (i + 1) j s' := by
  obtain ⟨s', inserted, lands⟩ := grown.lands chain hi order
  have other : ∀ k ≤ i, (blocks k).vertex ≠ (blocks (i + 1)).vertex := fun k hk same => by
    have := chain.vertex_inj (by omega) (by omega) same
    omega
  refine ⟨s', inserted, lands.mirrored, ?_, ?_, ?_, ?_, lands.only grown.only, ?_, ?_⟩
  · intro v
    rw [lands.mem, grown.keys]
    constructor
    · rintro (rfl | ⟨k, hk, rfl⟩)
      · exact ⟨i + 1, Nat.le_refl _, rfl⟩
      · exact ⟨k, by omega, rfl⟩
    · rintro ⟨k, hk, rfl⟩
      rcases Nat.lt_or_ge i k with top | old
      · obtain rfl : k = i + 1 := by omega
        exact .inl rfl
      · exact .inr ⟨k, old, rfl⟩
  · intro p link
    rcases (lands.edge _ _).mp link with old | ⟨same, _⟩
    · exact grown.bottom p old
    · exact other 0 (by omega) same
  · intro k hk p
    rw [lands.edge, chain.parent i hi]
    rcases Nat.lt_or_ge k i with old | top
    · have apart := other (k + 1) old
      simp only [apart, false_and, or_false]
      exact grown.edges k old p
    · obtain rfl : k = i := by omega
      have none : ¬ s.dag.Parent (blocks (k + 1)).vertex p := fun link => by
        obtain ⟨m, hm, same⟩ := (grown.keys _).mp link.mem
        exact other m hm same.symm
      simp [none, eq_comm]
  · intro k hk
    rw [lands.chits]
    rcases Nat.lt_or_ge i k with top | old
    · obtain rfl : k = i + 1 := by omega
      rw [if_pos rfl, if_neg (by omega)]
    · rw [if_neg (other k old)]
      exact grown.chits k old
  · intro k hk
    rw [lands.sets]
    rcases Nat.lt_or_ge i k with top | old
    · obtain rfl : k = i + 1 := by omega
      have none : votesAbove j (i + 1) = 0 := by
        unfold votesAbove
        omega
      rw [if_pos rfl, none]
      rfl
    · rw [if_neg (chain.height_ne (by omega) (by omega) (by omega))]
      exact grown.sets k old
  · intro h member
    rcases lands.height member with here | old
    · exact ⟨i + 1, Nat.le_refl _, here⟩
    · obtain ⟨k, hk, same⟩ := grown.heights h old
      exact ⟨k, by omega, same⟩

/-- The query after the last one that a `u8` can count panics. -/
theorem Grown.overflow (chain : Chain n blocks) (hi : i ≤ n) (grown : Grown blocks i j s)
    (hj : j < i) (full : 2 ^ 8 ≤ j + 1) (order : HailOrder H) :
    s.passQuery order (blocks (j + 1)) = none := by
  by_contra some
  obtain ⟨⟨accepted, s'⟩, passed⟩ := Option.ne_none_iff_exists'.mp some
  have votes := (passQuery_votes passed).1
  have listed : (blocks 0).vertex ∈ s'.dag.dfs (blocks (j + 1)).vertex := by
    rw [setChit_dfs votes.chit]
    exact (grown.mem_dfs chain hi hj (by omega)).mpr (by omega)
  obtain ⟨c, computed⟩ := votes.tally.conviction _ listed
  rw [grown.conviction chain hi hj votes.chit (by omega), if_neg (by unfold votesAbove; omega)]
    at computed
  cases computed

theorem Grown.room (chain : Chain n blocks) (hi : i ≤ n) (grown : Grown blocks i j s) (hj : j < i)
    {r : Option (Vertex H) × Hail H} (passed : s.passQuery order (blocks (j + 1)) = some r) :
    j + 1 < 2 ^ 8 := by
  by_contra full
  rw [grown.overflow chain hi hj (Nat.not_lt.mp full)] at passed
  cases passed

omit [LinearOrder H] [Sortition H] in
theorem Chain.rooted (chain : Chain n blocks) : (blocks 0).vertex.height = 0 := by
  rw [← UInt64.toNat_inj, chain.height 0 (Nat.zero_le n)]
  rfl

/-- A node that has no blocks takes genesis from the first committee. -/
theorem Chain.starts (chain : Chain n blocks) (nodeId : Id) (order : HailOrder H)
    {msg : LiveCommittee H} (genesis : msg.lastAcceptedBlock = blocks 0) :
    ∃ s, (Hail.new nodeId).liveCommittee order msg = some s := by
  have inserts : ∀ t : Hail H, t.dag = .new →
      ∃ s, (t.insert order (blocks 0)).unwrap.map Prod.snd = some s := by
    intro t empty
    obtain ⟨s, inserted, _⟩ := @insert_adds _ _ _ order t (blocks 0)
      (empty ▸ Finmap.notMem_empty) (empty ▸ Finmap.notMem_empty) (by simp [chain.genesis])
      fun _ => chain.rooted
    rw [inserted]
    exact ⟨s, rfl⟩
  unfold liveCommittee
  rw [genesis]
  exact inserts _ rfl

/-- Then genesis is all that it has. -/
theorem Grown.start (chain : Chain n blocks) {nodeId : Id} {msg : LiveCommittee H}
    (genesis : msg.lastAcceptedBlock = blocks 0)
    (started : (Hail.new nodeId).liveCommittee order msg = some s) : Grown blocks 0 0 s := by
  unfold liveCommittee at started
  obtain ⟨⟨_, t⟩, inserted, rfl⟩ := Option.map_eq_some_iff.mp started
  have left := congrArg Outcome.state? (Outcome.unwrap_eq_some.mp inserted)
  rw [genesis] at left
  rcases insert_cases left with ⟨_, member | ⟨_, high⟩⟩ | ⟨adds, _⟩
  · exact absurd member Finmap.notMem_empty
  · exact absurd chain.rooted high
  have lands := adds.lands DAG.Mirrored.new Finmap.notMem_empty (by simp [chain.genesis])
    Finmap.notMem_empty
  refine ⟨lands.mirrored, ?_, ?_, ?_, ?_, lands.only ?_, ?_, ?_⟩
  · intro v
    rw [lands.mem]
    constructor
    · rintro (rfl | old)
      · exact ⟨0, Nat.le_refl 0, rfl⟩
      · exact absurd old Finmap.notMem_empty
    · rintro ⟨k, hk, rfl⟩
      exact .inl (by rw [Nat.le_zero.mp hk])
  · intro p link
    rcases (lands.edge _ _).mp link with old | ⟨_, named⟩
    · exact absurd old.mem Finmap.notMem_empty
    · simp [chain.genesis] at named
  · intro k hk
    exact absurd hk (Nat.not_lt_zero k)
  · intro k hk
    obtain rfl : k = 0 := Nat.le_zero.mp hk
    rw [lands.chits, if_pos rfl]
    rfl
  · exact fun v member => absurd member Finmap.notMem_empty
  · intro k hk
    obtain rfl : k = 0 := Nat.le_zero.mp hk
    rw [lands.sets, if_pos rfl]
    rfl
  · intro h member
    rcases lands.height member with here | old
    · exact ⟨0, Nat.le_refl 0, here⟩
    · exact absurd old Finmap.notMem_empty

/-- The next block can be received and the next query completed without an error, and
the counters are the true numbers of votes. -/
structure Progress.Grows (n : Nat) (blocks : Nat → HailBlock H) (p : Progress H) : Prop where
  receive : p.received < n → ∀ order : HailOrder H, ∃ s,
    p.hail.insert order (blocks (p.received + 1)) = .ok () s
  complete : p.completed < p.received → ∀ order : HailOrder H, ∃ accepted s,
    p.hail.passQuery order (blocks (p.completed + 1)) = some (accepted, s)
  counters : ∀ k ≤ p.received, ∃ cs, p.hail.conflictMap.lookup (blocks k).vertex.height = some cs ∧
    cs.cnt = votesAbove p.completed k

theorem grow_grown (chain : Chain n blocks) {start : Hail H} (base : Grown blocks 0 0 start)
    {steps : List (Progress H × HailOrder H × Growth)} {p : Progress H}
    (run : Run (Progress.grow n blocks) ⟨start, 0, 0⟩ steps p) :
    p.completed ≤ p.received ∧ p.received ≤ n ∧ p.completed < 2 ^ 8 ∧
      Grown blocks p.received p.completed p.hail := by
  induction run with
  | start => exact ⟨Nat.le_refl 0, Nat.zero_le n, Nat.two_pow_pos 8, base⟩
  | @next steps t u e run taken ih =>
    obtain ⟨less, bound, small, grown⟩ := ih
    obtain ⟨order, e⟩ := e
    cases e with
    | receive =>
      simp only [Progress.grow] at taken
      split at taken
      · rename_i more
        obtain ⟨s', inserted, grown⟩ := grown.receive chain more less order
        rw [inserted] at taken
        cases taken
        exact ⟨by simp only; omega, more, small, grown⟩
      · cases taken
    | complete =>
      simp only [Progress.grow] at taken
      split at taken
      · rename_i more
        obtain ⟨⟨accepted, s'⟩, passed, rfl⟩ := Option.map_eq_some_iff.mp taken
        have room := grown.room chain bound more passed
        exact ⟨more, bound, room, grown.completed chain bound more room passed⟩
      · cases taken

/-- The node can receive the chain, and complete as many queries as a `u8` can count. -/
theorem grow_reaches (chain : Chain n blocks) {start : Hail H} (base : Grown blocks 0 0 start)
    (order : HailOrder H) {i j : Nat} (hi : i ≤ n) (hj : j ≤ i) (small : j < 2 ^ 8) :
    ∃ steps s, Run (Progress.grow n blocks) ⟨start, 0, 0⟩ steps ⟨s, i, j⟩ := by
  induction j with
  | zero =>
    induction i with
    | zero => exact ⟨[], start, .start⟩
    | succ i ih =>
      obtain ⟨steps, s, run⟩ := ih (by omega) (by omega)
      have grown := (grow_grown chain base run).2.2.2
      obtain ⟨s', inserted, _⟩ := grown.receive chain hi (Nat.zero_le i) order
      refine ⟨_, s', run.next (e := (order, .receive)) ?_⟩
      have more : i < n := hi
      simp only [Progress.grow, more, if_true, inserted]
      rfl
  | succ j ih =>
    obtain ⟨steps, s, run⟩ := ih (by omega) (by omega)
    have grown := (grow_grown chain base run).2.2.2
    obtain ⟨accepted, s', passed⟩ := grown.complete chain hi hj small order
    refine ⟨_, s', run.next (e := (order, .complete)) ?_⟩
    have more : j < i := hj
    simp only [Progress.grow, more, if_true, passed]
    rfl

/-- Growth goes on for as long as the blocks on top of genesis can be counted in a
`u8`, and no longer. -/
theorem chain_grows_iff (chain : Chain n blocks) {nodeId : Id} {order : HailOrder H}
    {msg : LiveCommittee H} {start : Hail H} (genesis : msg.lastAcceptedBlock = blocks 0)
    (started : (Hail.new nodeId).liveCommittee order msg = some start) :
    (∀ steps p, Run (Progress.grow n blocks) ⟨start, 0, 0⟩ steps p → p.Grows n blocks) ↔
      n < 2 ^ 8 := by
  have base := Grown.start chain genesis started
  constructor
  · intro grows
    by_contra long
    -- all blocks are received and 255 queries completed; the next one does not fit
    obtain ⟨steps, s, run⟩ := grow_reaches (i := n) (j := 2 ^ 8 - 1) chain base order
      (Nat.le_refl n) (by omega) (by decide)
    have grown := (grow_grown chain base run).2.2.2
    obtain ⟨accepted, s', passed⟩ := (grows steps _ run).complete (by simp only; omega) order
    rw [grown.overflow chain (Nat.le_refl n) (by simp only; omega) (Nat.le_refl _)] at passed
    cases passed
  · intro short steps p run
    obtain ⟨less, bound, small, grown⟩ := grow_grown chain base run
    refine ⟨fun more order => ?_, fun more order => ?_, fun k hk => ⟨_, grown.sets k hk, rfl⟩⟩
    · obtain ⟨s, inserted, _⟩ := grown.receive chain more less order
      exact ⟨s, inserted⟩
    · exact grown.complete chain bound more (by omega) order

end

/-- The chain of blocks without cells. -/
def line : Nat → HailBlock Digest
  | 0 => HailActor.genesis
  | k + 1 => ⟨some (line k).vertex, .new (line k).hash (UInt64.ofNat (k + 1)) ⟨0⟩ []⟩

theorem line_chain {n : Nat} (bound : n < 2 ^ 64) : Chain n line where
  genesis := rfl
  parent _ _ := rfl
  height k hk := by
    cases k with
    | zero => rfl
    | succ k => exact Nat.mod_eq_of_lt (by omega)

/-- The first committee of a node on its own, with genesis. -/
def alone : LiveCommittee Digest := ⟨(line 0).hash, line 0, 0, 1, ∅, ⟨0⟩⟩

theorem line_grows {n i j : Nat} (bound : n < 2 ^ 64) (hi : i ≤ n) (hj : j ≤ i)
    (small : j < 2 ^ 8) : ∃ start steps s,
      (Hail.new ⟨0⟩).liveCommittee ascendingVertices alone = some start ∧
      Run (Progress.grow n line) ⟨start, 0, 0⟩ steps ⟨s, i, j⟩ ∧ Grown line i j s := by
  have chain : Chain n line := line_chain bound
  obtain ⟨start, started⟩ :=
    chain.starts ⟨0⟩ ascendingVertices (rfl : alone.lastAcceptedBlock = line 0)
  have base := Grown.start chain rfl started
  obtain ⟨steps, s, run⟩ := grow_reaches chain base ascendingVertices hi hj small
  exact ⟨start, steps, s, started, run, (grow_grown chain base run).2.2.2⟩

/-- The node panics on the successful query of block 256. -/
theorem chain_stops : ∃ start steps p, Chain 256 line ∧
    (Hail.new ⟨0⟩).liveCommittee ascendingVertices alone = some start ∧
    Run (Progress.grow 256 line) ⟨start, 0, 0⟩ steps p ∧
    p.received = 256 ∧ p.completed = 255 ∧
    (∃ d, p.hail.dag.setChit (line 256).vertex 1 = .ok () d ∧
      d.conviction (line 0).vertex = some (.error .chitOverflow)) ∧
    ∀ order, p.hail.passQuery order (line 256) = none := by
  have chain : Chain 256 line := line_chain (by decide)
  obtain ⟨start, steps, s, started, run, grown⟩ := line_grows (n := 256) (i := 256) (j := 255)
    (by decide) (by decide) (by decide) (by decide)
  obtain ⟨d, chit⟩ := grown.chit (Nat.le_refl 256)
  have tooMany := grown.conviction chain (Nat.le_refl 256) (Nat.le_refl 256) chit (Nat.zero_le 256)
  exact ⟨start, steps, _, chain, started, run, rfl, rfl, ⟨d, chit, tooMany⟩, fun order =>
    grown.overflow chain (Nat.le_refl 256) (Nat.le_refl 256) (Nat.le_refl 256) order⟩

theorem chain_grows_two : ∃ start, Chain 2 line ∧
    (Hail.new ⟨0⟩).liveCommittee ascendingVertices alone = some start ∧
    ∀ steps p, Run (Progress.grow 2 line) ⟨start, 0, 0⟩ steps p → p.Grows 2 line := by
  have chain : Chain 2 line := line_chain (by decide)
  obtain ⟨start, started⟩ :=
    chain.starts ⟨0⟩ ascendingVertices (rfl : alone.lastAcceptedBlock = line 0)
  exact ⟨start, chain, started, (chain_grows_iff chain rfl started).mpr (by decide)⟩

end Subzero.Hail
