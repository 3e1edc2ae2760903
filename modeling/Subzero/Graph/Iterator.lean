import Subzero.Graph.Traversals

/-! The depth-first iterator, call by call. A vertex is marked when it is pushed, but for the
first one, and the iterator ends at a vertex without an entry. In a DAG that was built by
calls which all return it yields the ancestry of a vertex, each ancestor once. -/
namespace Subzero

/-- The stack, the top of it first, and the visited vertices. -/
structure DFS (V : Type) where
  stack : List V
  visited : Finset V

namespace DFS
variable {V : Type} [DecidableEq V]

def new (vx : V) : DFS V := ⟨[vx], ∅⟩

/-- An edge is pushed unless it is visited, and is visited then. -/
def push (it : DFS V) (edge : V) : DFS V :=
  if edge ∈ it.visited then it else ⟨edge :: it.stack, insert edge it.visited⟩

def next (d : DAG V) (it : DFS V) : Option V × DFS V :=
  match it.stack with
  | [] => (none, it)
  | next :: stack =>
    let it : DFS V := ⟨stack, insert next it.visited⟩
    match d.g.lookup next with
    | some adj => (some next, adj.foldl push it)
    | none => (none, it)

/-- The items up to the first `None`; `none` if that is not reached with so many calls. -/
def items (d : DAG V) : Nat → DFS V → Option (List V)
  | 0, _ => none
  | calls + 1, it =>
    match it.next d with
    | (none, _) => some []
    | (some v, it) => (items d calls it).map (v :: ·)

/-- The loop over the edges pushes the unmarked ones. -/
theorem foldl_push (edges stack : List V) (visited : Finset V) :
    edges.foldl push ⟨stack, visited⟩ =
      ⟨DAG.pushStack (unmarked visited edges) stack, visited ∪ edges.toFinset⟩ := by
  induction edges generalizing stack visited with
  | nil => simp [unmarked, DAG.pushStack]
  | cons e edges ih =>
    rw [List.foldl_cons, push]
    by_cases marked : e ∈ visited
    · rw [if_pos marked, ih]
      simp [unmarked, marked]
    · rw [if_neg marked, ih]
      simp [unmarked, marked, DAG.pushStack]

/-- Either the calls reach the end of the traversal, or each of them has yielded a vertex. -/
theorem items_cases (d : DAG V) (n : Nat) (stack : List V) (visited : Finset V) :
    items d n ⟨stack, visited⟩ = some (walk d.g.lookup DAG.pushStack n stack visited).visited ∨
      (walk d.g.lookup DAG.pushStack n stack visited).visited.length = n := by
  induction n generalizing stack visited with
  | zero => exact .inr rfl
  | succ n ih =>
    cases stack with
    | nil => exact .inl rfl
    | cons v stack =>
      cases entry : d.g.lookup v with
      | none => exact .inl (by simp [items, next, walk, entry])
      | some adj =>
        simp only [items, next, walk, entry, foldl_push]
        rcases ih (DAG.pushStack (unmarked (insert v visited) adj) stack)
          (insert v visited ∪ adj.toFinset) with reached | longer
        · exact .inl (by rw [reached]; rfl)
        · exact .inr (by rw [List.length_cons, longer])

end DFS

namespace DAG
variable {V : Type} [DecidableEq V] {d : DAG V}

/-- One call more than there are vertices is enough, as no vertex is yielded twice. -/
theorem Linked.items (linked : Linked d) (v : V) {n : Nat} (enough : d.g.keys.card < n) :
    (DFS.new v).items d n = some (d.dfs v) := by
  obtain ⟨more, rfl⟩ := Nat.exists_eq_add_of_le (Nat.succ_le_of_lt enough)
  have same := (iterators_fuel d v more).1
  rcases DFS.items_cases d (d.g.keys.card + 1 + more) [v] ∅ with reached | longer
  · rw [DFS.new, reached, same]
  · rw [same] at longer
    have inside : (d.dfs v).toFinset ⊆ d.g.keys := fun a listed =>
      Finmap.mem_keys.mpr (dfs_mem (List.mem_toFinset.mp listed))
    have short := Finset.card_le_card inside
    rw [List.toFinset_card_of_nodup (linked.dfs_nodup v)] at short
    omega

theorem dfs_head {v : V} (present : v ∈ d.g) : (d.dfs v).head? = some v := by
  obtain ⟨adj, entry⟩ := Finmap.mem_iff.mp present
  simp [dfs, walk, entry]

/-- After any calls that return, the iterator ends. It yields the vertex first and then the
other vertices that are reachable, each once, and nothing for a vertex that is not there. -/
theorem dfs_enumerates {steps : List (DAG V × Mutation V)} (run : Run mutateOk new steps d)
    (v : V) :
    ∃ yielded, (∀ n, d.g.keys.card < n → (DFS.new v).items d n = some yielded) ∧
      yielded.Nodup ∧ (v ∈ d.g → yielded.head? = some v) ∧
      (∀ a, a ∈ yielded ↔ v ∈ d.g ∧ Relation.ReflTransGen d.Parent v a) ∧
      (v ∉ d.g → yielded = []) := by
  have rep : Representation d := run.invariant (fun _ _ => True) (fun _ _ => trivial)
    Representation .new fun _ _ _ rep _ taken => rep.mutate taken
  have linked := rep.transposed.mirrored.toLinked
  exact ⟨d.dfs v, fun n => linked.items v, linked.dfs_nodup v, dfs_head,
    fun a => linked.mem_dfs, dfs_absent⟩

/-- A vertex that is its own parent twice, and one below it. -/
theorem dfs_enumerates_repeated :
    ∃ steps d, Run mutateOk (new : DAG Nat) steps d ∧
      steps.map Prod.snd = [.insertVx 0 [0, 0], .insertVx 1 [0, 0], .insertVx 2 [1, 0, 1]] ∧
      (DFS.new 2).items d 4 = some [2, 0, 1] ∧ ∀ a ∈ [2, 0, 1], d.Ancestor 2 a := by
  have found : (exec mutateOk (new : DAG Nat) [.insertVx 0 [0, 0], .insertVx 1 [0, 0],
      .insertVx 2 [1, 0, 1]]).any fun r => decide (
        r.1.map Prod.snd = [.insertVx 0 [0, 0], .insertVx 1 [0, 0], .insertVx 2 [1, 0, 1]] ∧
        r.2.g.keys.card < 4 ∧ (DFS.new 2).items r.2 4 = some [2, 0, 1]) := by
    decide +kernel
  obtain ⟨steps, d, run, facts⟩ := exec_any found
  obtain ⟨events, few, listed⟩ := of_decide_eq_true facts
  obtain ⟨yielded, ends, _, _, exactly, _⟩ := dfs_enumerates run 2
  refine ⟨steps, d, run, events, listed, fun a member => ?_⟩
  rw [← Option.some.inj ((ends 4 few).symm.trans listed)] at member
  exact ((exactly a).mp member).2

end DAG
end Subzero
