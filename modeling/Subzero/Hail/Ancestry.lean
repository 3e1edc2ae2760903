import Subzero.Graph.Conviction
import Subzero.Hail.Finality

/-! Finality along the ancestry. Only the direct parents of a block are asked whether
they are final. For blocks that are alone at their heights that is enough: the counter
of a parent has then counted every vote that the child had. -/
namespace Subzero
variable {H : Type} [LinearOrder H] [BlockDigest H] [Sortition H]
variable {s s' : Hail H} {v : Vertex H} {block : HailBlock H} {m m' : ConflictMap H}
  {order : HailOrder H} {vxs : List (Vertex H)} {d : DAG (Vertex H)}

/-- The vertex is the only one that was ever entered at its height. -/
def ConflictMap.AloneIn (m : ConflictMap H) (v : Vertex H) (cs : ConflictSet H) : Prop :=
  m.lookup v.height = some cs ∧ cs.conflicts = {v.blockHash}

namespace Hail

def Alone (s : Hail H) (v : Vertex H) : Prop :=
  ∃ cs ∈ s.conflictMap.lookup v.height, cs.conflicts = {v.blockHash}

instance (s : Hail H) (v : Vertex H) : Decidable (s.Alone v) :=
  inferInstanceAs (Decidable (∃ cs ∈ s.conflictMap.lookup v.height, cs.conflicts = {v.blockHash}))

/-- The parent of a new block is not one whose own insertion failed. -/
def Anchored (s : Hail H) (block : HailBlock H) : Prop :=
  block.vertex ∉ s.dag.g → ∀ p ∈ block.parent, p ∈ s.dag.inv → p ∈ s.dag.g ∨ p = block.vertex

instance (s : Hail H) (block : HailBlock H) : Decidable (s.Anchored block) :=
  inferInstanceAs (Decidable (block.vertex ∉ s.dag.g → ∀ p ∈ block.parent, p ∈ s.dag.inv →
    p ∈ s.dag.g ∨ p = block.vertex))

/-- The counters of the blocks that are alone: they have at most as many votes as
their progeny has chits, and at least as many as their children. -/
structure Counted (s : Hail H) : Prop where
  mirrored : s.dag.Mirrored
  bits : ∀ v c, s.dag.chits.lookup v = some c → c ≤ 1
  entered : ∀ v ∈ s.dag.g, ∃ cs, s.conflictMap.lookup v.height = some cs ∧
    v.blockHash ∈ cs.conflicts
  members : ∀ h cs, s.conflictMap.lookup h = some cs → cs.pref ∈ cs.conflicts ∧
    cs.last ∈ cs.conflicts
  absent : ∀ v cs, s.conflictMap.AloneIn v cs → v ∉ s.dag.g → cs.cnt = 0
  earned : ∀ v cs, s.conflictMap.AloneIn v cs → v ∈ s.dag.g → cs.cnt ≤ s.dag.weight v
  ordered : ∀ v p, s.dag.Parent v p → ∀ cs cs', s.conflictMap.AloneIn v cs →
    s.conflictMap.AloneIn p cs' → cs.cnt ≤ cs'.cnt

omit [BlockDigest H] [Sortition H] in
theorem Tally.conflicts (tally : Tally d vxs m m') (h : BlockHeight) :
    (m'.lookup h).map ConflictSet.conflicts = (m.lookup h).map ConflictSet.conflicts := by
  induction tally with
  | done => rfl
  | @vote vx rest m m' cs d1 d2 found _ _ _ ih =>
    rw [ih, HashMap.lookup_insert_ite]
    split
    · rename_i here
      rw [here, found]
      simp [ConflictSet.voteFor_conflicts]
    · rfl

omit [BlockDigest H] [Sortition H] in
theorem Tally.conviction (tally : Tally d vxs m m') :
    ∀ v ∈ vxs, ∃ c, d.conviction v = some (.ok c) := by
  induction tally with
  | done => simp
  | vote _ first _ _ ih => exact List.forall_mem_cons.mpr ⟨⟨_, first⟩, ih⟩

omit [BlockDigest H] [Sortition H] in
theorem Tally.mem_iff (tally : Tally d vxs m m') {h : BlockHeight} : h ∈ m' ↔ h ∈ m := by
  have same := congrArg Option.isSome (tally.conflicts h)
  rw [Option.isSome_map, Option.isSome_map] at same
  rw [← Finmap.lookup_isSome, ← Finmap.lookup_isSome, same]

omit [BlockDigest H] [Sortition H] in
theorem Tally.members (tally : Tally d vxs m m')
    (voters : ∀ v ∈ vxs, ∀ cs, m.lookup v.height = some cs → v.blockHash ∈ cs.conflicts)
    (members : ∀ h cs, m.lookup h = some cs → cs.pref ∈ cs.conflicts ∧ cs.last ∈ cs.conflicts) :
    ∀ h cs, m'.lookup h = some cs → cs.pref ∈ cs.conflicts ∧ cs.last ∈ cs.conflicts := by
  induction tally with
  | done => exact members
  | @vote vx rest m m' cs d1 d2 found _ _ _ ih =>
    refine ih (fun v listed set known => ?_) fun h set known => ?_
    · rw [HashMap.lookup_insert_ite] at known
      split at known
      · rename_i here
        cases known
        rw [ConflictSet.voteFor_conflicts]
        exact voters v (List.mem_cons_of_mem vx listed) cs (here ▸ found)
      · exact voters v (List.mem_cons_of_mem vx listed) set known
    · rw [HashMap.lookup_insert_ite] at known
      split at known
      · cases known
        rw [ConflictSet.voteFor_conflicts]
        have own := voters vx List.mem_cons_self cs found
        obtain ⟨pref, last⟩ := members _ cs found
        unfold ConflictSet.voteFor
        by_cases wins : d1 > d2 <;> by_cases same : vx.blockHash = cs.last <;>
          simp [wins, same, own, pref, last]
      · exact members h set known

omit [BlockDigest H] [Sortition H] in
/-- A block that is alone counts its own votes exactly, as long as they fit. -/
theorem Tally.alone {a : Vertex H} {cs : ConflictSet H} (tally : Tally d vxs m m')
    (nodup : vxs.Nodup) (alone : m.AloneIn a cs)
    (own : cs.pref = a.blockHash ∧ cs.last = a.blockHash)
    (only : ∀ v ∈ vxs, v.height = a.height → v = a) (room : a ∈ vxs → cs.cnt + 1 < 2 ^ 8) :
    m'.AloneIn a { cs with cnt := cs.cnt + if a ∈ vxs then 1 else 0 } := by
  induction tally generalizing cs with
  | done => simpa using alone
  | @vote vx rest m m' set d1 d2 found _ _ _ ih =>
    obtain ⟨fresh, nodup⟩ := List.nodup_cons.mp nodup
    have only' := fun v (h : v ∈ rest) => only v (List.mem_cons_of_mem vx h)
    by_cases here : vx = a
    · subst here
      obtain rfl : set = cs := Option.some.inj (found.symm.trans alone.1)
      have fits : (set.cnt + 1) % 2 ^ 8 = set.cnt + 1 :=
        Nat.mod_eq_of_lt (room List.mem_cons_self)
      have voted : set.voteFor vx.blockHash d1 d2 = { set with cnt := set.cnt + 1 } := by
        unfold ConflictSet.voteFor
        obtain ⟨conflicts, pref, last, cnt⟩ := set
        obtain ⟨rfl, rfl⟩ := own
        simpa using fits
      have next := @ih { set with cnt := set.cnt + 1 } nodup
        ⟨by rw [voted]; exact Finmap.lookup_insert _, alone.2⟩ own only'
        (fun h => absurd h fresh)
      simpa [fresh] using next
    · have apart : a.height ≠ vx.height := fun h => here (only vx List.mem_cons_self h.symm)
      have next := ih nodup ⟨by rw [HashMap.lookup_insert_ite, if_neg apart]; exact alone.1,
        alone.2⟩ own only' (fun h => room (List.mem_cons_of_mem vx h))
      simpa [Ne.symm here] using next

omit [Sortition H] in
/-- A block that is alone after an insertion is the new one, without votes, or was
alone before. -/
theorem aloneIn_insertBlock {order : Listing H} {block : Block H}
    (members : ∀ h cs, m.lookup h = some cs → cs.pref ∈ cs.conflicts ∧ cs.last ∈ cs.conflicts)
    (absent : ∀ cs, m.AloneIn block.vertex cs → cs.cnt = 0) {cs' : ConflictSet H}
    (alone : (m.insertBlock order block).AloneIn v cs') :
    (v = block.vertex ∧ cs'.cnt = 0) ∨ v.height ≠ block.height ∧ m.AloneIn v cs' := by
  obtain ⟨found, single⟩ := alone
  rw [ConflictMap.insertBlock_lookup] at found
  by_cases here : v.height = block.height
  · left
    rw [if_pos here] at found
    cases known : m.lookup block.height with
    | none =>
      rw [known] at found
      cases found
      have same : block.hash = v.blockHash := by simpa [ConflictSet.new] using single
      obtain ⟨height, hash⟩ := v
      cases here
      cases same
      exact ⟨rfl, rfl⟩
    | some cs =>
      rw [known] at found
      cases found
      rw [ConflictSet.insertHash_conflicts] at single
      have same : block.hash = v.blockHash := by
        have listed := Finset.mem_insert_self block.hash cs.conflicts
        rw [single] at listed
        exact Finset.mem_singleton.mp listed
      -- the set held nothing else before, so it has no votes yet
      have before : m.AloneIn block.vertex cs := by
        refine ⟨known, ?_⟩
        have sub : cs.conflicts ⊆ {block.hash} := by
          rw [same, ← single]
          exact Finset.subset_insert _ _
        rcases Finset.subset_singleton_iff.mp sub with none | one
        · have listed := (members _ cs known).1
          rw [none] at listed
          exact absurd listed (Finset.notMem_empty _)
        · exact one
      have zero := absent cs before
      obtain ⟨height, hash⟩ := v
      cases here
      cases same
      refine ⟨rfl, ?_⟩
      unfold ConflictSet.insertHash
      simp only
      split
      · rfl
      · exact zero
  · rw [if_neg here] at found
    exact .inr ⟨here, found, single⟩

omit [Sortition H] in
theorem insertBlock_listed {order : Listing H} {block : Block H}
    (listed : v = block.vertex ∨ ∃ cs, m.lookup v.height = some cs ∧ v.blockHash ∈ cs.conflicts) :
    ∃ cs, (m.insertBlock order block).lookup v.height = some cs ∧ v.blockHash ∈ cs.conflicts := by
  rw [ConflictMap.insertBlock_lookup]
  rcases listed with rfl | ⟨cs, known, listed⟩
  · refine ⟨_, if_pos rfl, ?_⟩
    split
    · rw [ConflictSet.insertHash_conflicts]
      exact Finset.mem_insert_self _ _
    · exact Finset.mem_singleton_self _
  · by_cases here : v.height = block.height
    · refine ⟨_, if_pos here, ?_⟩
      rw [← here, known]
      simp only [ConflictSet.insertHash_conflicts]
      exact Finset.mem_insert_of_mem listed
    · exact ⟨cs, by rw [if_neg here]; exact known, listed⟩

omit [Sortition H] in
theorem insertBlock_members {order : Listing H} {block : Block H}
    (members : ∀ h cs, m.lookup h = some cs → cs.pref ∈ cs.conflicts ∧ cs.last ∈ cs.conflicts) :
    ∀ h cs, (m.insertBlock order block).lookup h = some cs →
      cs.pref ∈ cs.conflicts ∧ cs.last ∈ cs.conflicts := by
  intro h cs found
  rw [ConflictMap.insertBlock_lookup] at found
  split at found
  · cases known : m.lookup block.height with
    | none =>
      rw [known] at found
      cases found
      simp [ConflictSet.new]
    | some set =>
      rw [known] at found
      cases found
      obtain ⟨pref, last⟩ := members _ set known
      rw [ConflictSet.insertHash_conflicts]
      unfold ConflictSet.insertHash
      simp only
      split <;> simp [pref, last]
  · exact members h cs found

omit [Sortition H] in
theorem Adds.parent_cases (adds : s.Adds order block s') {v p : Vertex H}
    (edge : s'.dag.Parent v p) : s.dag.Parent v p ∨ v = block.vertex ∧ p ∈ block.parent := by
  rw [DAG.parent_iff] at edge
  rcases DAG.insertVx_g adds.dag with same | grown
  · rw [same] at edge
    exact .inl edge
  · simp only [grown, HashMap.lookup_insert_ite] at edge
    by_cases new : v = block.vertex
    · simp only [new, if_true, Option.some.injEq, exists_eq_left', Option.mem_toList] at edge
      exact .inr ⟨new, edge⟩
    · simp only [new, if_false] at edge
      exact .inl edge

omit [Sortition H] in
theorem Adds.mem (adds : s.Adds order block s') :
    (v ∈ s.dag.g → v ∈ s'.dag.g) ∧ (v ∈ s'.dag.g → v = block.vertex ∨ v ∈ s.dag.g) := by
  rcases DAG.insertVx_g adds.dag with same | grown
  · rw [same]
    exact ⟨id, .inr⟩
  · rw [grown, Finmap.mem_insert]
    exact ⟨.inr, id⟩

omit [Sortition H] in
theorem Adds.chits (adds : s.Adds order block s') :
    (∀ v, v ≠ block.vertex → s'.dag.chits.lookup v = s.dag.chits.lookup v) ∧
      (s'.dag.chits.lookup block.vertex = s.dag.chits.lookup block.vertex ∨
        s'.dag.chits.lookup block.vertex = some 0) := by
  obtain ⟨_, ⟨taken, _⟩ | refused⟩ := DAG.insertVx_option adds.fresh adds.dag
  · refine ⟨taken.chits, taken.own.imp ?_ id⟩
    rintro ⟨before, after⟩
    rw [before, after]
  · rw [refused.chits]
    exact ⟨fun _ _ => rfl, .inl rfl⟩

omit [Sortition H] in
theorem Adds.weight_le (adds : s.Adds order block s') (mirrored : s.dag.Mirrored)
    (mirrored' : s'.dag.Mirrored) (present : v ∈ s.dag.g) : s.dag.weight v ≤ s'.dag.weight v := by
  have children : ∀ a c, s.dag.Child a c → s'.dag.Child a c := by
    intro a c child
    obtain ⟨_, ⟨taken, _⟩ | refused⟩ := DAG.insertVx_option adds.fresh adds.dag
    · exact (taken.child a c).mpr (.inl child)
    · exact (refused.child a c).mpr child
  refine DAG.weight_mono (fun x member => ?_) fun x member => ?_
  · rw [mirrored.mem_progeny (mirrored.entry v present)] at member
    rw [mirrored'.mem_progeny (mirrored'.entry v (adds.mem.1 present))]
    exact Relation.ReflTransGen.mono children _ _ member
  · have old := mirrored.progeny_mem present member
    have other : x ≠ block.vertex := by
      rintro rfl
      exact adds.fresh old
    rw [DAG.chitOf, DAG.chitOf, adds.chits.1 x other]

omit [Sortition H] in
theorem Counted.adds (counted : s.Counted) (anchored : s.Anchored block)
    (adds : s.Adds order block s') : s'.Counted := by
  have mirrored' := counted.mirrored.insertVx adds.fresh (anchored adds.fresh) adds.dag
  have cases_alone : ∀ v cs, s'.conflictMap.AloneIn v cs →
      (v = block.vertex ∧ cs.cnt = 0) ∨
        v.height ≠ block.block.height ∧ s.conflictMap.AloneIn v cs := by
    intro v cs alone
    rw [adds.map] at alone
    exact aloneIn_insertBlock counted.members
      (fun cs alone => counted.absent _ cs alone adds.fresh) alone
  constructor
  · exact mirrored'
  · intro v c found
    by_cases here : v = block.vertex
    · subst here
      rcases adds.chits.2 with same | zero
      · exact counted.bits _ c (same ▸ found)
      · rw [zero] at found
        cases found
        exact Nat.zero_le 1
    · rw [adds.chits.1 v here] at found
      exact counted.bits v c found
  · intro v present
    rw [adds.map]
    exact insertBlock_listed ((adds.mem.2 present).imp id (counted.entered v))
  · rw [adds.map]
    exact insertBlock_members counted.members
  · intro v cs alone outside
    rcases cases_alone v cs alone with ⟨_, zero⟩ | ⟨_, before⟩
    · exact zero
    · exact counted.absent v cs before fun h => outside (adds.mem.1 h)
  · intro v cs alone present
    rcases cases_alone v cs alone with ⟨_, zero⟩ | ⟨apart, before⟩
    · rw [zero]
      exact Nat.zero_le _
    · have old : v ∈ s.dag.g := by
        rcases adds.mem.2 present with rfl | old
        · exact absurd rfl apart
        · exact old
      exact (counted.earned v cs before old).trans
        (adds.weight_le counted.mirrored mirrored' old)
  · intro v p edge cs cs' alone alone'
    rcases cases_alone v cs alone with ⟨_, zero⟩ | ⟨apart, before⟩
    · rw [zero]
      exact Nat.zero_le _
    · have old : s.dag.Parent v p := by
        rcases adds.parent_cases edge with old | ⟨rfl, _⟩
        · exact old
        · exact absurd rfl apart
      rcases cases_alone p cs' alone' with ⟨rfl, _⟩ | ⟨_, before'⟩
      · exact absurd (counted.mirrored.closed v _ old) adds.fresh
      · exact counted.ordered v p old cs cs' before before'

omit [Sortition H] in
/-- What the votes make of a block that is alone: one more if it is in the ancestry
of the queried block. -/
theorem Counted.tally (counted : s.Counted) (votes : s.Votes block s') {cs : ConflictSet H}
    (alone : s.conflictMap.AloneIn v cs) :
    s'.conflictMap.AloneIn v
      { cs with cnt := cs.cnt + if v ∈ s.dag.dfs block.vertex then 1 else 0 } := by
  obtain ⟨g, inv⟩ := DAG.setChit_edges (congrArg Outcome.state? votes.chit)
  have mirrored' := counted.mirrored.of_edges g inv
  have own : cs.pref = v.blockHash ∧ cs.last = v.blockHash := by
    obtain ⟨pref, last⟩ := counted.members _ cs alone.1
    rw [alone.2, Finset.mem_singleton] at pref last
    exact ⟨pref, last⟩
  have only : ∀ x ∈ s.dag.dfs block.vertex, x.height = v.height → x = v := by
    intro x member same
    obtain ⟨set, known, listed⟩ := counted.entered x (DAG.dfs_mem member)
    rw [same, alone.1] at known
    cases known
    rw [alone.2, Finset.mem_singleton] at listed
    obtain ⟨height, hash⟩ := x
    cases same
    cases listed
    rfl
  have tally := votes.tally
  rw [setChit_dfs votes.chit] at tally
  refine tally.alone (counted.mirrored.toLinked.dfs_nodup _) alone own only fun member => ?_
  -- the conviction that is computed for the block bounds its counter
  obtain ⟨root, path⟩ := counted.mirrored.toLinked.mem_dfs.mp member
  have present := DAG.dfs_mem member
  obtain ⟨c, computed⟩ := tally.conviction v member
  have fits := (mirrored'.conviction_ok (mirrored'.entry v (g ▸ present)) computed).2
  rw [DAG.weight_setChit counted.bits votes.chit,
    if_pos ((counted.mirrored.mem_progeny_iff present).mpr path)] at fits
  have bound := counted.earned v cs alone present
  omega

omit [Sortition H] in
theorem Counted.alone_before (counted : s.Counted) (votes : s.Votes block s') {cs' : ConflictSet H}
    (alone : s'.conflictMap.AloneIn v cs') : ∃ cs, s.conflictMap.AloneIn v cs ∧
      cs'.cnt = cs.cnt + if v ∈ s.dag.dfs block.vertex then 1 else 0 := by
  have same := votes.tally.conflicts v.height
  rw [alone.1, Option.map_some] at same
  obtain ⟨cs, known, eq⟩ := Option.map_eq_some_iff.mp same.symm
  have before : s.conflictMap.AloneIn v cs := ⟨known, eq.trans alone.2⟩
  have after := counted.tally votes before
  exact ⟨cs, before, by rw [Option.some.inj (alone.1.symm.trans after.1)]⟩

omit [Sortition H] in
theorem Counted.votes (counted : s.Counted) (votes : s.Votes block s') : s'.Counted := by
  obtain ⟨g, inv⟩ := DAG.setChit_edges (congrArg Outcome.state? votes.chit)
  have tally := votes.tally
  rw [setChit_dfs votes.chit] at tally
  have linked := counted.mirrored.toLinked
  constructor
  · exact counted.mirrored.of_edges g inv
  · intro v c found
    rw [(DAG.setChit_one counted.bits votes.chit).1, HashMap.lookup_insert_ite] at found
    split at found
    · cases found
      exact Nat.le_refl 1
    · exact counted.bits v c found
  · intro v present
    obtain ⟨cs, known, listed⟩ := counted.entered v (g ▸ present)
    have same := tally.conflicts v.height
    rw [known, Option.map_some] at same
    obtain ⟨cs', known', eq⟩ := Option.map_eq_some_iff.mp same
    exact ⟨cs', known', eq ▸ listed⟩
  · refine tally.members (fun v member cs known => ?_) counted.members
    obtain ⟨set, known', listed⟩ := counted.entered v (DAG.dfs_mem member)
    rw [known] at known'
    cases known'
    exact listed
  · intro v cs' alone outside
    obtain ⟨cs, before, count⟩ := counted.alone_before votes alone
    have outside : v ∉ s.dag.g := g ▸ outside
    rw [count, counted.absent v cs before outside,
      if_neg fun member => outside (DAG.dfs_mem member)]
  · intro v cs' alone present
    obtain ⟨cs, before, count⟩ := counted.alone_before votes alone
    have present : v ∈ s.dag.g := g ▸ present
    have bound := counted.earned v cs before present
    rw [count, DAG.weight_setChit counted.bits votes.chit]
    by_cases member : v ∈ s.dag.dfs block.vertex
    · have path := (linked.mem_dfs.mp member).2
      rw [if_pos member, if_pos ((counted.mirrored.mem_progeny_iff present).mpr path)]
      omega
    · rw [if_neg member]
      omega
  · intro v p edge cs cs' alone alone'
    have edge : s.dag.Parent v p := by
      rw [DAG.parent_iff, g] at edge
      exact edge
    obtain ⟨set, before, count⟩ := counted.alone_before votes alone
    obtain ⟨set', before', count'⟩ := counted.alone_before votes alone'
    have bound := counted.ordered v p edge set set' before before'
    rw [count, count']
    by_cases member : v ∈ s.dag.dfs block.vertex
    · obtain ⟨root, path⟩ := linked.mem_dfs.mp member
      rw [if_pos member, if_pos (linked.mem_dfs.mpr ⟨root, path.tail edge⟩)]
      omega
    · rw [if_neg member]
      omega

omit [BlockDigest H] [Sortition H] in
theorem Counted.same (counted : s.Counted) (same : s.Same s') : s'.Counted := by
  obtain ⟨map, dag, _⟩ := same
  obtain ⟨mirrored, bits, entered, members, absent, earned, ordered⟩ := counted
  rw [← map, ← dag] at *
  exact ⟨mirrored, bits, entered, members, absent, earned, ordered⟩

omit [BlockDigest H] [Sortition H] in
/-- A block that is alone is final once its counter is past the lower threshold. -/
theorem Counted.final_iff (counted : s.Counted) {cs : ConflictSet H}
    (alone : s.conflictMap.AloneIn v cs) : s.isAcceptedBlock v = .ok true ↔ BETA1 ≤ cs.cnt := by
  have pref : cs.pref = v.blockHash := by
    have listed := (counted.members _ cs alone.1).1
    rw [alone.2] at listed
    exact Finset.mem_singleton.mp listed
  have one : cs.conflicts.card = 1 := by rw [alone.2]; exact Finset.card_singleton _
  rw [isAcceptedBlock_ok]
  constructor
  · rintro ⟨set, known, enough⟩
    obtain rfl : set = cs := Option.some.inj (known.symm.trans alone.1)
    simpa [pref, one] using enough
  · intro enough
    exact ⟨cs, alone.1, by simp [pref, one, enough]⟩

omit [BlockDigest H] [Sortition H] in
theorem allAccepted_true :
    s.allAccepted vxs = .ok true ↔ ∀ v ∈ vxs, s.isAcceptedBlock v = .ok true := by
  induction vxs with
  | nil => simp [allAccepted]
  | cons v vxs ih =>
    unfold allAccepted
    rw [List.forall_mem_cons]
    split
    · rename_i failed
      simp [failed]
    · rename_i no
      simp [no]
    · rename_i yes
      simp [yes, ih]

omit [BlockDigest H] [Sortition H] in
/-- The check as the code makes it: the block and its direct parents. -/
theorem isAccepted_true (present : v ∈ s.dag.g) :
    s.isAccepted v = .ok true ↔
      s.isAcceptedBlock v = .ok true ∧ ∀ p, s.dag.Parent v p → s.isAcceptedBlock p = .ok true := by
  obtain ⟨parents, found⟩ := Finmap.mem_iff.mp present
  have direct : s.allAccepted parents = .ok true ↔
      ∀ p, s.dag.Parent v p → s.isAcceptedBlock p = .ok true := by
    rw [allAccepted_true]
    constructor
    · rintro all p ⟨es, found', listed⟩
      obtain rfl : parents = es := Option.mem_unique found found'
      exact all p listed
    · exact fun all p listed => all p ⟨parents, found, listed⟩
  rw [← direct, isAccepted]
  simp only [found]
  split
  · rename_i failed
    simp [failed]
  · rename_i no
    simp [no]
  · rename_i yes
    simp [yes]

omit [BlockDigest H] [Sortition H] in
/-- From a final block finality passes up through blocks that are alone. -/
theorem Counted.final_ancestor (counted : s.Counted) {v a : Vertex H} (path : s.dag.Ancestor v a)
    (alone : ∀ x, s.dag.Ancestor v x → s.Alone x) (final : s.isAcceptedBlock v = .ok true) :
    s.isAcceptedBlock a = .ok true := by
  induction path with
  | refl => exact final
  | @tail b c path edge ih =>
    obtain ⟨cs, known, single⟩ := alone b path
    obtain ⟨cs', known', single'⟩ := alone c (path.tail edge)
    have enough := (counted.final_iff ⟨known, single⟩).mp ih
    have more := counted.ordered b c edge cs cs' ⟨known, single⟩ ⟨known', single'⟩
    exact (counted.final_iff ⟨known', single'⟩).mpr (enough.trans more)

end Hail

namespace HailActor

/-- The condition on a step: the parent of a block from outside is anchored. -/
def Task.Anchored (s : Hail H) : Task H → Prop
  | .join msg => s.Anchored msg.lastAcceptedBlock
  | .receive block => s.Anchored block
  | _ => True

instance (s : Hail H) : (t : Task H) → Decidable (t.Anchored s)
  | .join msg => inferInstanceAs (Decidable (s.Anchored msg.lastAcceptedBlock))
  | .receive block => inferInstanceAs (Decidable (s.Anchored block))
  | .generate _ | .propose _ | .complete _ _ | .idle => isTrue trivial

omit [Sortition H] in
theorem Writes.anchored {w : HailActor H} {t : Task H} (writes : Writes order w t block)
    (anchored : t.Anchored w.hail) : w.hail.Anchored block := by
  cases writes with
  | join msg => exact anchored
  | receive block => exact anchored
  | generate selected =>
    rintro _ _ ⟨⟩ _
    exact .inl (Hail.selectParent_spec selected).1

theorem counted_step {w w' : HailActor H} {e : HailEvent H} (counted : w.hail.Counted)
    (anchored : (w.task e).Anchored w.hail) (taken : w.step (order, e) = some w') :
    w'.hail.Counted := by
  rcases (step_does taken).blocks with same | ⟨block, writes, adds⟩ | ⟨_, _, _, _, votes⟩
  · exact counted.same same
  · exact counted.adds (writes.anchored anchored) adds
  · exact counted.votes votes

/-- If no block names a parent whose insertion failed, then for every block whose
proper ancestry is alone the check of the direct parents is a check of the ancestry. -/
theorem parents_final_iff (nodeId : Id)
    (steps : List (HailActor H × HailOrder H × HailEvent H)) (w : HailActor H)
    (run : Run step (.started nodeId) steps w)
    (anchored : Meets (fun w x => (w.task x.2).Anchored w.hail) steps) (v : Vertex H)
    (present : v ∈ w.hail.dag.g)
    (alone : ∀ a, Relation.TransGen w.hail.dag.Parent v a → w.hail.Alone a) :
    w.hail.isAccepted v = .ok true ↔
      ∀ a, w.hail.dag.Ancestor v a → w.hail.isAcceptedBlock a = .ok true := by
  have counted : w.hail.Counted := by
    refine run.invariant _ anchored (fun w => w.hail.Counted) ?_ ?_
    · refine ⟨.new, ?_, fun v h => absurd h Finmap.notMem_empty, ?_, ?_, ?_,
        fun v p edge => absurd edge.mem Finmap.notMem_empty⟩
      · simp [started, Hail.new, DAG.new]
      · simp [started, Hail.new]
      · exact fun v cs alone => by simp [started, Hail.new, ConflictMap.AloneIn] at alone
      · exact fun v cs alone => by simp [started, Hail.new, ConflictMap.AloneIn] at alone
    · exact fun u e v counted meets taken => counted_step counted meets taken
  rw [Hail.isAccepted_true present]
  constructor
  · rintro ⟨final, parents⟩ a path
    rcases path.cases_head with rfl | ⟨p, edge, path⟩
    · exact final
    · exact counted.final_ancestor path (fun x path => alone x (.head' edge path))
        (parents p edge)
  · exact fun all => ⟨all v .refl, fun p edge => all p (.single edge)⟩

/-- Two blocks of height 1, a chain of two blocks on the first of them, and eleven
votes for the top of the chain. -/
def forkVotes : List (HailEvent Digest) :=
  let top := child (child firstBlock 2 0) 3 0
  [joins 0, .queryBlock firstBlock, .queryBlock rivalBlock, .queryBlock (child firstBlock 2 0)] ++
    poll 3 top ++ (List.range 10).flatMap (fun i => poll 3 (child top 4 i))

/-- The top of the chain is said to be final, while the block with a rival, two
below it, needs more votes. -/
theorem ancestry_not_final :
    ¬ ∀ (steps : List (HailActor Digest × HailOrder Digest × HailEvent Digest))
      (w : HailActor Digest), Run step sample steps w → ∀ v ∈ w.hail.dag.g,
      (w.hail.isAccepted v = .ok true ↔
        ∀ a, w.hail.dag.Ancestor v a → w.hail.isAcceptedBlock a = .ok true) := by
  intro agree
  let middle := child firstBlock 2 0
  let top := child middle 3 0
  have found : (runSample forkVotes).any (fun r => decide (top.vertex ∈ r.2.hail.dag.g ∧
      r.2.hail.isAccepted top.vertex = .ok true ∧
      r.2.hail.isAcceptedBlock firstBlock.vertex = .ok false ∧
      r.2.hail.dag.g.lookup top.vertex = some [middle.vertex] ∧
      r.2.hail.dag.g.lookup middle.vertex = some [firstBlock.vertex])) = true := by
    decide +kernel
  obtain ⟨steps, w, run, facts⟩ := exec_any found
  obtain ⟨present, final, waits, first, second⟩ := of_decide_eq_true facts
  have path : w.hail.dag.Ancestor top.vertex firstBlock.vertex :=
    .tail (.single ⟨_, first, List.mem_cons_self⟩) ⟨_, second, List.mem_cons_self⟩
  have decided := (agree steps w run top.vertex present).mp final _ path
  have waits : w.hail.isAcceptedBlock firstBlock.vertex = .ok false := waits
  rw [waits] at decided
  cases decided

/-- Eleven votes on a chain without forks: the top and its ancestry are final. -/
theorem parents_final_chain :
    ∃ (steps : List (HailActor Digest × HailOrder Digest × HailEvent Digest))
      (w : HailActor Digest), Run step sample steps w ∧
      w.hail.isAccepted (child firstBlock 2 0).vertex = .ok true ∧
      (w.hail.isAccepted (child firstBlock 2 0).vertex = .ok true ↔
        ∀ a, w.hail.dag.Ancestor (child firstBlock 2 0).vertex a →
          w.hail.isAcceptedBlock a = .ok true) := by
  let top := child firstBlock 2 0
  have found : (runSample ([joins 0, .queryBlock firstBlock] ++ poll 1 top ++
      (List.range 10).flatMap (fun i => poll 1 (child top 3 i)))).any (fun r =>
        decide ((top.vertex ∈ r.2.hail.dag.g ∧ r.2.hail.isAccepted top.vertex = .ok true ∧
          r.2.hail.dag.g.lookup top.vertex = some [firstBlock.vertex] ∧
          r.2.hail.dag.g.lookup firstBlock.vertex = some [genesis.vertex] ∧
          r.2.hail.dag.g.lookup genesis.vertex = some []) ∧
          (r.2.hail.Alone firstBlock.vertex ∧ r.2.hail.Alone genesis.vertex) ∧
          ∀ x ∈ r.1, (x.1.task x.2.2).Anchored x.1.hail)) = true := by
    decide +kernel
  obtain ⟨steps, w, run, facts⟩ := exec_any found
  obtain ⟨⟨present, final, first, second, third⟩, ⟨alone, alone'⟩, anchored⟩ :=
    of_decide_eq_true facts
  refine ⟨steps, w, run, final,
    parents_final_iff _ steps w run anchored top.vertex present fun a path => ?_⟩
  -- the proper ancestry is the block below and genesis
  have parent : ∀ v es p, w.hail.dag.g.lookup v = some es → w.hail.dag.Parent v p → p ∈ es := by
    rintro v es p known ⟨es', known', listed⟩
    obtain rfl : es = es' := Option.mem_unique known known'
    exact listed
  have reached : a = firstBlock.vertex ∨ a = genesis.vertex := by
    induction path with
    | single edge => exact .inl (by simpa using parent _ _ _ first edge)
    | tail _ edge ih =>
      rcases ih with rfl | rfl
      · exact .inr (by simpa using parent _ _ _ second edge)
      · exact absurd (parent _ _ _ third edge) List.not_mem_nil
  rcases reached with rfl | rfl
  · exact alone
  · exact alone'

end HailActor
end Subzero
