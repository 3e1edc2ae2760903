import Subzero.Cell
import Subzero.Graph.Dag

/-! The conflict graph: a hypergraph whose vertices are spendable outputs and
whose arcs are cells, with a conflict set of its own for every cell. -/
namespace Subzero

/-- Min required confidence for a singleton conflict set. -/
def BETA1 : Nat := 11
/-- Min required confidence in the presence of conflicts. -/
def BETA2 : Nat := 20

structure ConflictSet (T : Type) where
  conflicts : Finset T
  pref : T
  last : T
  cnt : Nat
  deriving DecidableEq

namespace ConflictSet
variable {T : Type} [DecidableEq T]

def new (t : T) : ConflictSet T := ⟨{t}, t, t, 0⟩

def isPreferred (cs : ConflictSet T) (t : T) : Bool := cs.pref = t

def isSingleton (cs : ConflictSet T) : Bool := cs.conflicts.card = 1

/-- `pref` and `last` are left unchanged even if they were the removed element. -/
def removeFromConflictSet (elt : T) (cs : ConflictSet T) : ConflictSet T :=
  if cs.conflicts.card ≤ 1 then cs else { cs with conflicts := cs.conflicts.erase elt }

/-- What one successful query does to the conflict set of `t`. -/
def update (t : T) (d1 d2 : Nat) (cs : ConflictSet T) : ConflictSet T :=
  let cs := if d1 > d2 then { cs with pref := t } else cs
  if t ≠ cs.last then { cs with last := t }
  else if cs.cnt < BETA2 then { cs with cnt := cs.cnt + 1 } else cs

end ConflictSet

inductive OutputStatus where
  | pending
  | accepted
  | rejected
  deriving DecidableEq

structure VertexData (H : Type) where
  spenders : Finset H
  status : OutputStatus
  deriving DecidableEq

structure ConflictGraph (H : Type) where
  vertices : HashMap (CellId H) (VertexData H)
  cells : HashMap H (Cell H)
  cs : HashMap H (ConflictSet H)
  insertionOrder : List H

namespace ConflictGraph
variable {H : Type} [DecidableEq H] [Blake3 H]

/-- Add the listed ids that are not there yet as accepted vertices. -/
def addAccepted (ids : List (CellId H)) (vertices : HashMap (CellId H) (VertexData H)) :
    HashMap (CellId H) (VertexData H) :=
  ids.foldl (fun vs g => if g ∈ vs then vs else vs.insert g ⟨∅, .accepted⟩) vertices

def new (order : HashOrder H) (genesis : Finset (CellId H)) : ConflictGraph H :=
  ⟨addAccepted (order.cellIds.list genesis) ∅, ∅, ∅, []⟩

def append (order : HashOrder H) (c : ConflictGraph H) (ids : Finset (CellId H)) :
    ConflictGraph H :=
  { c with vertices := addAccepted (order.cellIds.list ids) c.vertices }

/-- Record a spender on the consumed vertices and collect the spenders already
there. The loop stops at an unknown id; the spenders recorded so far stay. -/
def spend (hash : H) : List (CellId H) → HashMap (CellId H) (VertexData H) → Finset H →
    Bool × HashMap (CellId H) (VertexData H) × Finset H
  | [], vertices, conflicts => (true, vertices, conflicts)
  | id :: ids, vertices, conflicts =>
    match vertices.lookup id with
    | none => (false, vertices, conflicts)
    | some data =>
      spend hash ids (vertices.insert id { data with spenders := insert hash data.spenders })
        (conflicts ∪ data.spenders)

/-- Overwrite the produced ids with fresh pending vertices. -/
def produce (ids : List (CellId H)) (vertices : HashMap (CellId H) (VertexData H)) :
    HashMap (CellId H) (VertexData H) :=
  ids.foldl (fun vs id => vs.insert id ⟨∅, .pending⟩) vertices

/-- The conflict set a new cell starts with: its conflicts, and `pref`, `last`
and `cnt` of the conflict that was inserted first. -/
def ownSet (hash : H) (conflicts : Finset H) (first : ConflictSet H) : ConflictSet H :=
  ⟨insert hash conflicts, first.pref, first.last, first.cnt⟩

/-- `none` is a panic on a conflict that has no conflict set. -/
def linkConflicts (order : HashOrder H) (c : ConflictGraph H) (hash : H)
    (conflicts : Finset H) : Option (HashMap H (ConflictSet H)) :=
  match HashMap.updateKeys (fun set => { set with conflicts := insert hash set.conflicts })
      (order.hashes.list conflicts) c.cs with
  | (false, _) => none
  | (true, cs) =>
    if conflicts = ∅ then some (cs.insert hash (ConflictSet.new hash))
    else
      match c.insertionOrder.find? (· ∈ conflicts) with
      | none => none
      | some first =>
        match cs.lookup first with
        | none => none
        | some set => some (cs.insert hash (ownSet hash conflicts set))

def insertCell (order : HashOrder H) (c : ConflictGraph H) (cell : Cell H) :
    Outcome (GraphError H) (ConflictGraph H) Unit :=
  let hash := cell.hash
  let known := c.cells.lookup hash
  let c := { c with cells := c.cells.insert hash cell }
  if known.isSome then .err .duplicateCell c
  else
    match spend hash (order.cellIds.list cell.consumed) c.vertices ∅ with
    | (false, vertices, _) => .err .undefinedCell { c with vertices := vertices }
    | (true, vertices, conflicts) =>
      let c := { c with
        vertices := produce (order.cellIds.list cell.produced) vertices
        insertionOrder := c.insertionOrder ++ [hash] }
      match linkConflicts order c hash conflicts with
      | none => .panic
      | some cs => .ok () { c with cs := cs }

/-- Adjust the vertices when a cell is removed; `none` is a panic. -/
def removeFromVertices (order : HashOrder H) (c : ConflictGraph H) (hash : H) :
    Option (HashMap (CellId H) (VertexData H)) :=
  match c.cells.lookup hash with
  | none => none
  | some cell =>
    match HashMap.updateKeys (fun data => { data with status := .rejected })
        (order.cellIds.list (fromOutputs hash cell.outputs)) c.vertices with
    | (false, _) => none
    | (true, vertices) =>
      match HashMap.updateKeys (fun data => { data with spenders := data.spenders.erase hash })
          (order.cellIds.list cell.consumed) vertices with
      | (false, _) => none
      | (true, vertices) => some vertices

/-- Drop a cell from the conflict sets of the listed cells that have one. -/
def unlink (hash : H) (others : List H) (cs : HashMap H (ConflictSet H)) :
    HashMap H (ConflictSet H) :=
  others.foldl (fun cs other =>
    match cs.lookup other with
    | some set => cs.insert other (set.removeFromConflictSet hash)
    | none => cs) cs

def removeCell (order : HashOrder H) (c : ConflictGraph H) (hash : H) :
    Outcome (GraphError H) (ConflictGraph H) Unit :=
  match c.cs.lookup hash with
  | none => .err .undefinedCell c
  | some set =>
    match removeFromVertices order c hash with
    | none => .panic
    | some vertices =>
      let others := (order.hashes.list set.conflicts).filter (· ≠ hash)
      .ok () {
        vertices := vertices
        cells := c.cells.erase hash
        cs := (unlink hash others c.cs).erase hash
        insertionOrder := c.insertionOrder.filter (· ≠ hash) }

/-- Returns the conflicts that were removed. The accepted cell stays, with a
singleton conflict set that retains the old confidence. -/
def acceptCell (order : HashOrder H) (c : ConflictGraph H) (cell : Cell H) :
    Outcome (GraphError H) (ConflictGraph H) (List H) :=
  let hash := cell.hash
  match HashMap.updateKeys (fun data => { data with status := .accepted })
      (order.cellIds.list cell.produced) c.vertices with
  | (false, _) => .panic
  | (true, vertices) =>
    let c := { c with vertices := vertices }
    match c.cs.lookup hash with
    | none => .err .undefinedCell c
    | some set =>
      let rejected := (order.hashes.list set.conflicts).filter (· ≠ hash)
      (Outcome.forEach (fun other c => removeCell order c other) rejected c).bind fun _ c =>
        .ok rejected
          { c with cs := c.cs.insert hash { ConflictSet.new hash with cnt := set.cnt } }

def isSingleton (c : ConflictGraph H) (hash : H) : Except (GraphError H) Bool :=
  match c.cs.lookup hash with
  | some set => .ok set.isSingleton
  | none => .error (.undefinedCellHash hash)

def getPreferred (c : ConflictGraph H) (hash : H) : Except (GraphError H) H :=
  match c.cs.lookup hash with
  | some set => .ok set.pref
  | none => .error (.undefinedCellHash hash)

def isPreferred (c : ConflictGraph H) (hash : H) : Except (GraphError H) Bool :=
  match c.cs.lookup hash with
  | some set => .ok (set.isPreferred hash)
  | none => .error (.undefinedCellHash hash)

def getConfidence (c : ConflictGraph H) (hash : H) : Except (GraphError H) Nat :=
  match c.cs.lookup hash with
  | some set => .ok set.cnt
  | none => .error (.undefinedCellHash hash)

/-- The two mutators of a single conflict set share their lookups and errors. -/
def mutateSet (c : ConflictGraph H) (hash : H) (f : ConflictSet H → ConflictSet H) :
    Outcome (GraphError H) (ConflictGraph H) Unit :=
  if 0 < c.cs.keys.card then
    match c.cs.lookup hash with
    | some set => .ok () { c with cs := c.cs.insert hash (f set) }
    | none => .err (.undefinedCellHash hash) c
  else .err .emptyConflictGraph c

def updateConflictSet (c : ConflictGraph H) (hash : H) (d1 d2 : Nat) :
    Outcome (GraphError H) (ConflictGraph H) Unit :=
  c.mutateSet hash (ConflictSet.update hash d1 d2)

def resetCount (c : ConflictGraph H) (hash : H) :
    Outcome (GraphError H) (ConflictGraph H) Unit :=
  c.mutateSet hash fun set => { set with cnt := 0 }

end ConflictGraph
end Subzero
