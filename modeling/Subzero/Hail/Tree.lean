import Subzero.Graph.Mirror
import Subzero.Hail.Sample
import Subzero.Hail.Steps

/-! The DAG of hail as a tree of blocks. Its edges are what blocks say their parents
are; no handler compares a parent with the height or the predecessor of the block. -/
namespace Subzero
variable {H : Type} [LinearOrder H] [BlockDigest H] [Sortition H]

/-- The vertex is one below the block and carries the hash of its predecessor. -/
def Block.Extends (block : Block H) (p : Vertex H) : Prop :=
  p.height.toNat + 1 = block.height.toNat ∧ block.predecessor = some p.blockHash

instance (block : Block H) (p : Vertex H) : Decidable (block.Extends p) :=
  inferInstanceAs (Decidable (p.height.toNat + 1 = block.height.toNat ∧
    block.predecessor = some p.blockHash))

/-- A block that is new gets an edge to its parent if the DAG knows the parent, and to
itself if it names itself. Such a parent is the predecessor. -/
def HailBlock.Consistent (d : DAG (Vertex H)) (block : HailBlock H) : Prop :=
  block.vertex ∉ d.g → ∀ p ∈ block.parent, p ∈ d.inv ∨ p = block.vertex → block.block.Extends p

instance (d : DAG (Vertex H)) (block : HailBlock H) : Decidable (block.Consistent d) :=
  inferInstanceAs (Decidable (block.vertex ∉ d.g → ∀ p ∈ block.parent,
    p ∈ d.inv ∨ p = block.vertex → block.block.Extends p))

namespace HailActor

/-- A block from outside names its predecessor as its parent. For a new block of this
node, the strongly preferred vertices one below it are its predecessor. -/
def Task.Consistent (s : Hail H) : Task H → Prop
  | .join msg => msg.lastAcceptedBlock.Consistent s.dag
  | .receive block => block.Consistent s.dag
  | .generate block => block.vertex ∉ s.dag.g → ∀ p ∈ s.dag.g.keys,
      s.isStronglyPreferred p = .ok true → p.height = block.height - 1 → block.Extends p
  | _ => True

instance (s : Hail H) : (t : Task H) → Decidable (t.Consistent s)
  | .join msg => inferInstanceAs (Decidable (msg.lastAcceptedBlock.Consistent s.dag))
  | .receive block => inferInstanceAs (Decidable (block.Consistent s.dag))
  | .generate block => inferInstanceAs (Decidable (block.vertex ∉ s.dag.g → ∀ p ∈ s.dag.g.keys,
      s.isStronglyPreferred p = .ok true → p.height = block.height - 1 → block.Extends p))
  | .propose _ | .complete _ _ | .idle => isTrue trivial

/-- Every edge leads from a block to its predecessor. -/
def BlockTree (d : DAG (Vertex H)) : Prop :=
  ∀ v p, d.Parent v p → ∃ block : Block H, block.vertex = v ∧ block.Extends p

omit [Sortition H] in
theorem Writes.consistent {order : HailOrder H} {w : HailActor H} {t : Task H}
    {block : HailBlock H} (writes : Writes order w t block) (consistent : t.Consistent w.hail) :
    block.Consistent w.hail.dag := by
  cases writes with
  | join msg => exact consistent
  | receive block => exact consistent
  | generate selected =>
    obtain ⟨present, preferred, height⟩ := Hail.selectParent_spec selected
    rintro fresh _ ⟨⟩ _
    exact consistent fresh _ (Finmap.mem_keys.mpr present) preferred height

theorem BlockTree.step {order : HailOrder H} {w w' : HailActor H} {e : HailEvent H}
    (tree : BlockTree w.hail.dag) (consistent : (w.task e).Consistent w.hail)
    (taken : w.step (order, e) = some w') : BlockTree w'.hail.dag := by
  rcases (step_does taken).blocks with same | ⟨block, writes, adds⟩ | ⟨_, _, _, _, votes⟩
  · rw [same.dag]
    exact tree
  · intro v p edge
    obtain ⟨_, ⟨taken, known⟩ | refused⟩ := DAG.insertVx_option adds.fresh adds.dag
    · rcases (taken.edge adds.fresh v p).mp edge with old | ⟨rfl, named⟩
      · exact tree v p old
      · exact ⟨block.block, rfl,
          writes.consistent consistent adds.fresh p named (known p named)⟩
    · rw [DAG.parent_iff, refused.g] at edge
      exact tree v p edge
  · intro v p edge
    have g := (DAG.setChit_edges (congrArg Outcome.state? votes.chit)).1
    rw [DAG.parent_iff, g] at edge
    exact tree v p edge

theorem blockTree_run {nodeId : Id} {steps : List (HailActor H × HailOrder H × HailEvent H)}
    {w : HailActor H} (run : Run step (.started nodeId) steps w)
    (consistent : Meets (fun w x => (w.task x.2).Consistent w.hail) steps) :
    BlockTree w.hail.dag := by
  refine run.invariant _ consistent (fun w => BlockTree w.hail.dag) ?_ ?_
  · exact fun v p edge => absurd edge.mem Finmap.notMem_empty
  · exact fun u e v tree meets taken => tree.step meets taken

omit [Sortition H] in
/-- Heights go down along the edges. -/
theorem BlockTree.acyclic {d : DAG (Vertex H)} (tree : BlockTree d) : d.Acyclic := by
  refine DAG.Acyclic.of_rank (fun v => v.height.toNat) fun v p edge => ?_
  obtain ⟨block, rfl, below, _⟩ := tree v p edge
  have height : block.vertex.height = block.height := rfl
  rw [height]
  omega

/-- In every run whose blocks are consistent, the edges lead from blocks to their
predecessors, one below them, so there is no cycle. -/
theorem dag_block_tree (injective : Function.Injective (Block.hash : Block H → H)) (nodeId : Id)
    (steps : List (HailActor H × HailOrder H × HailEvent H)) (w : HailActor H)
    (run : Run step (.started nodeId) steps w)
    (consistent : Meets (fun w x => (w.task x.2).Consistent w.hail) steps) :
    (∀ v p, w.hail.dag.Parent v p → (∃ block : Block H, block.vertex = v) ∧
      ∀ block : Block H, block.vertex = v → block.Extends p) ∧ w.hail.dag.Acyclic := by
  have tree : BlockTree w.hail.dag := blockTree_run run consistent
  refine ⟨fun v p edge => ?_, tree.acyclic⟩
  obtain ⟨block, eq, follows⟩ := tree v p edge
  refine ⟨⟨block, eq⟩, fun other same => ?_⟩
  have hash : other.hash = block.hash := congrArg Vertex.blockHash (same.trans eq.symm)
  rw [injective hash]
  exact follows

/-- A peer sends a block that names itself as its parent. -/
theorem dag_self_loop :
    ∃ (steps : List (HailActor Digest × HailOrder Digest × HailEvent Digest))
      (w : HailActor Digest) (block : Block Digest), Run step sample steps w ∧
      w.hail.dag.Parent block.vertex block.vertex ∧ ¬ block.Extends block.vertex ∧
      ¬ w.hail.dag.Acyclic := by
  let block := blank 5 0
  have found : (runSample [joins 0, .queryBlock ⟨some block.vertex, block⟩]).any (fun r =>
      decide (r.2.hail.dag.g.lookup block.vertex = some [block.vertex])) = true := by
    decide +kernel
  obtain ⟨steps, w, run, loop⟩ := exec_any found
  have edge : w.hail.dag.Parent block.vertex block.vertex :=
    ⟨[block.vertex], of_decide_eq_true loop, List.mem_cons_self⟩
  exact ⟨steps, w, block, run, edge, by decide +kernel, fun acyclic => acyclic _ (.single edge)⟩

/-- A chain of two blocks from peers, and a block of this node on top of it. -/
theorem dag_block_tree_chain :
    ∃ (steps : List (HailActor Digest × HailOrder Digest × HailEvent Digest))
      (w : HailActor Digest), Run step sample steps w ∧ w.hail.dag.g.keys.card = 3 ∧
      (∀ v p, w.hail.dag.Parent v p → (∃ block : Block Digest, block.vertex = v) ∧
        ∀ block : Block Digest, block.vertex = v → block.Extends p) ∧ w.hail.dag.Acyclic := by
  let first : HailBlock Digest := ⟨some genesis.vertex, .new genesis.hash 1 ⟨0⟩ []⟩
  have found : (runSample ([joins 0] ++ poll 0 first ++ [.acceptedCells [], .deliver 0])).any
      (fun r => decide (r.2.hail.dag.g.keys.card = 3 ∧
        ∀ x ∈ r.1, (x.1.task x.2.2).Consistent x.1.hail)) = true := by
    decide +kernel
  obtain ⟨steps, w, run, both⟩ := exec_any found
  obtain ⟨size, consistent⟩ := of_decide_eq_true both
  exact ⟨steps, w, run, size, dag_block_tree blockHash_injective _ steps w run consistent⟩

end HailActor
end Subzero
