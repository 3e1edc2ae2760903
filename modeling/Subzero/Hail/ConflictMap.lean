import Subzero.Hail.Block

/-! The conflicting blocks of every height. The blocks of one height share one
preference, one last voted hash and one counter. -/
namespace Subzero

/-- Snow* parameter beta1: safe early commitment. -/
def Hail.BETA1 : Nat := 11
/-- Snow* parameter beta2: commitment threshold. -/
def Hail.BETA2 : Nat := 20

namespace ConflictSet
variable {H : Type} [LinearOrder H]

/-- The loop starts at the first hash and moves to every smaller one. -/
def lowestHash (order : Listing H) (cs : ConflictSet H) : Option H :=
  match order.list cs.conflicts with
  | [] => none
  | first :: hashes => some (hashes.foldl (fun h hi => if hi < h then hi else h) first)

def isLowestHash (order : Listing H) (cs : ConflictSet H) (hash : H) : Bool :=
  match cs.lowestHash order with
  | some h => h = hash
  | none => true

/-- A block enters the set. It supersedes the preferred one if it has the lowest
hash and the counter is low; then the counter starts again, and `last` stays. -/
def insertHash (order : Listing H) (hash : H) (cs : ConflictSet H) : ConflictSet H :=
  let cs := { cs with conflicts := insert hash cs.conflicts }
  if cs.cnt < Hail.BETA1 ∧ cs.isLowestHash order hash then { cs with pref := hash, cnt := 0 }
  else cs

/-- What one successful query does to the set of a height. The counter is a `u8`;
it is never reset here. -/
def voteFor (hash : H) (d1 d2 : Nat) (cs : ConflictSet H) : ConflictSet H :=
  let cs := if d1 > d2 then { cs with pref := hash } else cs
  if hash ≠ cs.last then { cs with last := hash }
  else { cs with cnt := (cs.cnt + 1) % 2 ^ 8 }

theorem insertHash_conflicts (order : Listing H) (hash : H) (cs : ConflictSet H) :
    (cs.insertHash order hash).conflicts = insert hash cs.conflicts := by
  unfold insertHash
  simp only
  split <;> rfl

theorem voteFor_conflicts (hash : H) (d1 d2 : Nat) (cs : ConflictSet H) :
    (cs.voteFor hash d1 d2).conflicts = cs.conflicts := by
  unfold voteFor
  by_cases wins : d1 > d2 <;> simp only [wins, if_true, if_false] <;> split <;> rfl

theorem voteFor_pref (hash : H) (d1 d2 : Nat) (cs : ConflictSet H) :
    (cs.voteFor hash d1 d2).pref = if d1 > d2 then hash else cs.pref := by
  unfold voteFor
  by_cases wins : d1 > d2 <;> simp only [wins, if_true, if_false] <;> split <;> rfl

end ConflictSet

abbrev ConflictMap (H : Type) := HashMap BlockHeight (ConflictSet H)

namespace ConflictMap
variable {H : Type} [LinearOrder H] [BlockDigest H]

/-- The lookups of the set at a height fail in one way. -/
def getSet (m : ConflictMap H) (height : BlockHeight) : Except (HailError H) (ConflictSet H) :=
  match m.lookup height with
  | some cs => .ok cs
  | none => .error (.invalidBlockHeight height)

def isPreferred (m : ConflictMap H) (height : BlockHeight) (hash : H) :
    Except (HailError H) Bool := (m.getSet height).map (·.isPreferred hash)

def isSingleton (m : ConflictMap H) (height : BlockHeight) : Except (HailError H) Bool :=
  (m.getSet height).map (·.isSingleton)

def getPreferred (m : ConflictMap H) (height : BlockHeight) : Except (HailError H) H :=
  (m.getSet height).map (·.pref)

/-- The counter belongs to the preferred block; the others have no confidence. -/
def getConfidence (m : ConflictMap H) (vx : Vertex H) : Except (HailError H) Nat :=
  (m.getSet vx.height).map fun cs => if cs.pref = vx.blockHash then cs.cnt else 0

def insertBlock (order : Listing H) (m : ConflictMap H) (block : Block H) : ConflictMap H :=
  match m.lookup block.height with
  | some cs => m.insert block.height (cs.insertHash order block.hash)
  | none => m.insert block.height (.new block.hash)

def updateConflictSet (m : ConflictMap H) (height : BlockHeight) (hash : H) (d1 d2 : Nat) :
    Except (HailError H) (ConflictMap H) :=
  (m.getSet height).map fun cs => m.insert height (cs.voteFor hash d1 d2)

omit [BlockDigest H] in
theorem getConfidence_ok {m : ConflictMap H} {v : Vertex H} {c : Nat} :
    m.getConfidence v = .ok c ↔
      ∃ cs, m.lookup v.height = some cs ∧ (if cs.pref = v.blockHash then cs.cnt else 0) = c := by
  unfold getConfidence getSet
  cases m.lookup v.height <;> simp [Except.map]

theorem insertBlock_lookup (order : Listing H) (m : ConflictMap H) (block : Block H)
    (h : BlockHeight) :
    (m.insertBlock order block).lookup h =
      if h = block.height then
        some (match m.lookup block.height with
          | some cs => cs.insertHash order block.hash
          | none => .new block.hash)
      else m.lookup h := by
  unfold insertBlock
  cases m.lookup block.height <;> simp only [HashMap.lookup_insert_ite]

omit [BlockDigest H] in
theorem updateConflictSet_ok {m m' : ConflictMap H} {height : BlockHeight} {hash : H}
    {d1 d2 : Nat} :
    m.updateConflictSet height hash d1 d2 = .ok m' ↔
      ∃ cs, m.lookup height = some cs ∧ m' = m.insert height (cs.voteFor hash d1 d2) := by
  unfold updateConflictSet getSet
  cases m.lookup height <;> simp [Except.map, eq_comm]

end ConflictMap
end Subzero
