import Subzero.Lib.Outcome
import Subzero.Lib.HashMap
import Subzero.Lib.Traverse

/-! The directed acyclic graph of the consensus components: outbound edges `g`,
their inversion `inv`, and a chit for every vertex that was ever inserted. -/
namespace Subzero

/-- `graph::Error`. Deriving cell ids cannot fail, so its variant is left out. -/
inductive GraphError (H : Type) where
  | vertexExists
  | vacantEntry
  | undefinedChit
  | undefinedVertex
  | chitReplace
  | chitOverflow
  | emptyConflictGraph
  | duplicateCell
  | undefinedCell
  | undefinedCellHash (hash : H)
  deriving DecidableEq

structure DAG (V : Type) where
  g : HashMap V (List V)
  inv : HashMap V (List V)
  chits : HashMap V Nat

namespace DAG
variable {V : Type} [DecidableEq V]

def new : DAG V := ⟨∅, ∅, ∅⟩

def getChit (d : DAG V) (vx : V) : Except (GraphError V) Nat :=
  match d.chits.lookup vx with
  | some chit => .ok chit
  | none => .error .undefinedChit

def setChit (d : DAG V) (vx : V) (chit : Nat) : Outcome (GraphError V) (DAG V) Unit :=
  match d.chits.lookup vx with
  | some old =>
    if old = 1 then .err .chitReplace d
    else .ok () { d with chits := d.chits.insert vx chit }
  | none => .ok () { d with chits := d.chits.insert vx chit }

/-- Open an inverted adjacency list for a vertex unless it has one. -/
def withEntry (vx : V) (inv : HashMap V (List V)) : HashMap V (List V) :=
  if vx ∈ inv then inv else inv.insert vx []

/-- The inverted edges are pushed before the vertex is looked up in `g`, and they
stay there when the insertion fails. -/
def insertVx (d : DAG V) (vx : V) (edges : List V) : Outcome (GraphError V) (DAG V) Unit :=
  match HashMap.updateKeys (· ++ [vx]) edges (withEntry vx d.inv) with
  | (false, inv) => .err .vacantEntry { d with inv := inv }
  | (true, inv) =>
    if vx ∈ d.g then .err .vertexExists { d with inv := inv }
    else setChit { d with g := d.g.insert vx edges, inv := inv } vx 0

/-- The vertices of the list that are missing. -/
def hasVertices (d : DAG V) (vs : List V) : Except (List V) Unit :=
  let missing := vs.filter (· ∉ d.g)
  if missing = [] then .ok () else .error missing

/-- Removes a vertex with its edges and returns its children. -/
def removeVx (d : DAG V) (vx : V) : Outcome (GraphError V) (DAG V) (Finset V) :=
  match d.inv.lookup vx with
  | none => .err .undefinedVertex d
  | some children =>
    match HashMap.updateKeys (·.filter (· ≠ vx)) children d.g with
    | (false, g) => .err .vacantEntry { d with g := g }
    | (true, g) =>
      match g.lookup vx with
      | none => .err .undefinedVertex { d with g := g }
      | some parents =>
        match HashMap.updateKeys (·.filter (· ≠ vx)) parents d.inv with
        | (false, inv) => .err .vacantEntry { d with g := g, inv := inv }
        | (true, inv) =>
          .ok children.toFinset { d with g := g.erase vx, inv := inv.erase vx }

/-- Depth-first: new vertices go on top of the stack, the last edge first. -/
def pushStack (fresh work : List V) : List V := fresh.reverse ++ work

/-- Breadth-first: new vertices go to the end of the queue. -/
def pushQueue (fresh work : List V) : List V := work ++ fresh

/-- The iterator ends at the first vertex that is not a key of `g`. -/
def dfs (d : DAG V) (vx : V) : List V :=
  (walk d.g.lookup pushStack (d.g.keys.card + 1) [vx] ∅).visited

def sumChits (d : DAG V) : List V → Nat → Except (GraphError V) Nat
  | [], sum => .ok sum
  | vx :: rest, sum =>
    match d.getChit vx with
    | .error e => .error e
    | .ok chit => if sum + chit < 2 ^ 8 then sumChits d rest (sum + chit) else .error .chitOverflow

/-- The chits of the progeny are summed in a `u8`. A vertex without an inverted
adjacency list is counted before its list is unwrapped; `none` is that panic. -/
def conviction (d : DAG V) (vx : V) : Option (Except (GraphError V) Nat) :=
  let progeny := walk d.inv.lookup pushQueue (d.inv.keys.card + 1) [vx] {vx}
  match sumChits d (progeny.visited ++ progeny.stuck.toList) 0, progeny.stuck with
  | .error e, _ => some (.error e)
  | .ok sum, none => some (.ok sum)
  | .ok _, some _ => none

/-- The vertices whose inverted adjacency list is empty, in the order of the map. -/
def leaves (order : Listing V) (d : DAG V) : List V :=
  (order.list d.inv.keys).filter fun vx => d.inv.lookup vx = some []

omit [DecidableEq V] in
theorem pushStack_perm (fresh work : List V) : (pushStack fresh work).Perm (fresh ++ work) :=
  (List.reverse_perm fresh).append_right work

omit [DecidableEq V] in
theorem pushQueue_perm (fresh work : List V) : (pushQueue fresh work).Perm (fresh ++ work) :=
  List.perm_append_comm

/-- The fuel is not what ends the iterators: with more of it they go through the same
vertices, in any DAG. -/
theorem iterators_fuel (d : DAG V) (vx : V) (more : Nat) :
    (walk d.g.lookup pushStack (d.g.keys.card + 1 + more) [vx] ∅).visited = d.dfs vx ∧
      walk d.inv.lookup pushQueue (d.inv.keys.card + 1 + more) [vx] {vx} =
        walk d.inv.lookup pushQueue (d.inv.keys.card + 1) [vx] {vx} := by
  have entries : ∀ (m : HashMap V (List V)) v es, m.lookup v = some es → v ∈ m.keys :=
    fun m v es found => HashMap.mem_keys_of_lookup found
  constructor
  · rw [dfs, walk_unmarked_start, walk_unmarked_start,
      walk_fuel_from pushStack_perm (entries d.g)]
  · exact walk_fuel_from pushQueue_perm (entries d.inv) vx more

/-- An edge of the DAG, from a vertex to one of its parents. -/
def Parent (d : DAG V) (v p : V) : Prop := Edge d.g.lookup v p

/-- An inverted edge, from a vertex to one of its children. -/
def Child (d : DAG V) (v c : V) : Prop := Edge d.inv.lookup v c

/-- The ancestry of a vertex, the vertex included. -/
def Ancestor (d : DAG V) : V → V → Prop := Relation.ReflTransGen d.Parent

/-- The proper progeny of a vertex, along the inverted edges. -/
def Progeny (d : DAG V) : V → V → Prop := Relation.TransGen d.Child

end DAG
end Subzero
