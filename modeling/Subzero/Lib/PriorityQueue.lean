import Mathlib.Order.Lattice
import Subzero.Lib.Supply

/-! A queue with a priority for each item, which gives up an item of least or of greatest
priority. Which one of several it is, is left to a listing of the items. -/
namespace Subzero

abbrev PriorityQueue (K P : Type) := HashMap K P

namespace PriorityQueue
variable {K P : Type} [DecidableEq K]

/-- The first entry, in the order of the listing, with a priority that comes before all. -/
def peek (before : P → P → Prop) [DecidableRel before] (order : Listing K)
    (q : PriorityQueue K P) : Option (K × P) :=
  let entries := HashMap.snapshot order (fun _ => true) q
  entries.find? fun e => entries.all fun other => before e.2 other.2

section Peek
variable {before : P → P → Prop} [DecidableRel before] {order : Listing K} {q : PriorityQueue K P}

theorem peek_some {e : K × P} (found : peek before order q = some e) :
    q.lookup e.1 = some e.2 ∧ ∀ k p, q.lookup k = some p → before e.2 p := by
  have listed : e ∈ HashMap.snapshot order (fun _ => true) q := List.mem_of_find?_eq_some found
  have first := List.find?_some found
  refine ⟨(HashMap.mem_snapshot.mp listed).1, fun k p present => ?_⟩
  have other : (k, p) ∈ HashMap.snapshot order (fun _ => true) q :=
    HashMap.mem_snapshot.mpr ⟨present, rfl⟩
  exact of_decide_eq_true (List.all_eq_true.mp first (k, p) other)

omit [DecidableEq K] [DecidableRel before] in
/-- Some entry of a list comes before all. -/
theorem exists_first [Std.Total before] [IsTrans P before] {entries : List (K × P)}
    (some : entries ≠ []) : ∃ e ∈ entries, ∀ other ∈ entries, before e.2 other.2 := by
  induction entries with
  | nil => contradiction
  | cons e entries ih =>
    have self : before e.2 e.2 := (Std.Total.total e.2 e.2).elim id id
    by_cases none : entries = []
    · subst none
      exact ⟨e, List.mem_cons_self, by simpa using self⟩
    · obtain ⟨first, listed, least⟩ := ih none
      rcases Std.Total.total (r := before) e.2 first.2 with here | there
      · refine ⟨e, List.mem_cons_self, fun other member => ?_⟩
        rcases List.mem_cons.mp member with rfl | later
        · exact self
        · exact IsTrans.trans _ _ _ here (least other later)
      · refine ⟨first, List.mem_cons_of_mem e listed, fun other member => ?_⟩
        rcases List.mem_cons.mp member with rfl | later
        · exact there
        · exact least other later

/-- Only an empty queue has nothing to give. -/
theorem peek_none [Std.Total before] [IsTrans P before] (nothing : peek before order q = none)
    (k : K) : q.lookup k = none := by
  by_contra present
  obtain ⟨p, found⟩ := Option.ne_none_iff_exists'.mp present
  have listed : (k, p) ∈ HashMap.snapshot order (fun _ => true) q :=
    HashMap.mem_snapshot.mpr ⟨found, rfl⟩
  obtain ⟨e, member, first⟩ : ∃ e ∈ HashMap.snapshot order (fun _ => true) q,
      ∀ other ∈ HashMap.snapshot order (fun _ => true) q, before e.2 other.2 :=
    exists_first (List.ne_nil_of_mem listed)
  have failed := List.find?_eq_none.mp nothing e member
  exact failed (List.all_eq_true.mpr fun other there => decide_eq_true (first other there))

end Peek

variable [LinearOrder P]

def peekMax (order : Listing K) (q : PriorityQueue K P) : Option (K × P) := peek (· ≥ ·) order q

def popMax (order : Listing K) (q : PriorityQueue K P) : Option ((K × P) × PriorityQueue K P) :=
  (peekMax order q).map fun e => (e, q.erase e.1)

def popMin (order : Listing K) (q : PriorityQueue K P) : Option ((K × P) × PriorityQueue K P) :=
  (peek (· ≤ ·) order q).map fun e => (e, q.erase e.1)

/-- Insert an item, or raise the priority that it has. -/
def pushIncrease (q : PriorityQueue K P) (k : K) (p : P) : PriorityQueue K P :=
  match q.lookup k with
  | some old => if old < p then q.insert k p else q
  | none => q.insert k p

theorem pushIncrease_of_none {q : PriorityQueue K P} {k : K} (absent : q.lookup k = none) (p : P) :
    q.pushIncrease k p = q.insert k p := by
  simp only [pushIncrease, absent]

/-- Pop least items, `n` at the most. -/
def takeMin (order : Listing K) : Nat → PriorityQueue K P → List (K × P) × PriorityQueue K P
  | 0, q => ([], q)
  | n + 1, q =>
    match popMin order q with
    | none => ([], q)
    | some (e, q) =>
      let (taken, rest) := takeMin order n q
      (e :: taken, rest)

/-- Of a queue, `n` entries of least priority are taken and the rest stays. -/
structure Least (n : Nat) (q : PriorityQueue K P) (taken : List (K × P))
    (rest : PriorityQueue K P) : Prop where
  nodup : (taken.map Prod.fst).Nodup
  length : taken.length = min n q.keys.card
  found : ∀ e ∈ taken, q.lookup e.1 = some e.2
  others : ∀ k, rest.lookup k = if k ∈ taken.map Prod.fst then none else q.lookup k
  least : ∀ e ∈ taken, ∀ k p, rest.lookup k = some p → e.2 ≤ p

omit [LinearOrder P] in
theorem keys_eq_empty {q : PriorityQueue K P} (nothing : ∀ k, q.lookup k = none) :
    q.keys = ∅ := by
  refine Finset.eq_empty_of_forall_notMem fun k member => ?_
  obtain ⟨p, found⟩ := HashMap.mem_keys_iff.mp member
  rw [nothing k] at found
  contradiction

theorem Least.cons {n : Nat} {q rest : PriorityQueue K P} {e : K × P} {taken : List (K × P)}
    (here : q.lookup e.1 = some e.2) (first : ∀ k p, q.lookup k = some p → e.2 ≤ p)
    (later : Least n (q.erase e.1) taken rest) : Least (n + 1) q (e :: taken) rest := by
  have old : ∀ k p, Finmap.lookup k (Finmap.erase e.1 q) = some p →
      k ≠ e.1 ∧ q.lookup k = some p := by
    intro k p found
    rw [HashMap.lookup_erase_ite] at found
    split at found
    · contradiction
    · rename_i other
      exact ⟨other, found⟩
  have fresh : e.1 ∉ taken.map Prod.fst := by
    intro listed
    obtain ⟨other, member, same⟩ := List.mem_map.mp listed
    exact (old _ _ (later.found other member)).1 same
  constructor
  · exact List.nodup_cons.mpr ⟨fresh, later.nodup⟩
  · have member : e.1 ∈ q.keys := HashMap.mem_keys_of_lookup here
    have size := Finset.card_erase_add_one member
    rw [List.length_cons, later.length, Finmap.keys_erase]
    omega
  · intro other listed
    rcases List.mem_cons.mp listed with rfl | after
    · exact here
    · exact (old _ _ (later.found other after)).2
  · intro k
    rw [later.others, HashMap.lookup_erase_ite, List.map_cons]
    by_cases same : k = e.1
    · simp only [same, List.mem_cons_self, if_true, ite_self]
    · simp only [List.mem_cons, same, false_or, if_false]
  · intro other listed k p left
    rcases List.mem_cons.mp listed with rfl | after
    · rw [later.others] at left
      split at left
      · contradiction
      · exact first k p (old k p left).2
    · exact later.least other after k p left

theorem takeMin_least (order : Listing K) (n : Nat) (q : PriorityQueue K P) :
    Least n q (takeMin order n q).1 (takeMin order n q).2 := by
  induction n generalizing q with
  | zero => constructor <;> simp [takeMin]
  | succ n ih =>
    cases popped : peek (· ≤ ·) order q with
    | none =>
      have empty := keys_eq_empty (peek_none popped)
      constructor <;> simp [takeMin, popMin, popped, empty]
    | some e =>
      obtain ⟨here, first⟩ := peek_some popped
      simp only [takeMin, popMin, popped, Option.map_some]
      exact .cons here first (ih (q.erase e.1))

/-- Push entries with raised priorities into a queue without their items. -/
theorem lookup_pushIncrease_all (raise : P → P) (value : K → Option P) {taken : List (K × P)}
    {q : PriorityQueue K P} (nodup : (taken.map Prod.fst).Nodup)
    (absent : ∀ k ∈ taken.map Prod.fst, q.lookup k = none)
    (found : ∀ e ∈ taken, value e.1 = some e.2) (k : K) :
    (taken.foldl (fun q e => pushIncrease q e.1 (raise e.2)) q).lookup k =
      if k ∈ taken.map Prod.fst then (value k).map raise else q.lookup k := by
  induction taken generalizing q with
  | nil => rfl
  | cons e taken ih =>
    rw [List.map_cons, List.nodup_cons] at nodup
    have here : pushIncrease q e.1 (raise e.2) = q.insert e.1 (raise e.2) :=
      pushIncrease_of_none (absent e.1 List.mem_cons_self) _
    have later : ∀ j ∈ taken.map Prod.fst, (q.insert e.1 (raise e.2)).lookup j = none := by
      intro j listed
      have other : j ≠ e.1 := fun same => nodup.1 (same ▸ listed)
      rw [HashMap.lookup_insert_ite, if_neg other]
      exact absent j (List.mem_cons_of_mem _ listed)
    rw [List.foldl_cons, here, ih nodup.2 later fun other listed =>
      found other (List.mem_cons_of_mem e listed), HashMap.lookup_insert_ite, List.map_cons]
    by_cases same : k = e.1
    · subst same
      rw [if_neg nodup.1, if_pos rfl, if_pos List.mem_cons_self, found e List.mem_cons_self]
      rfl
    · simp only [List.mem_cons, same, false_or, if_false]

/-- What was taken is back with a raised priority, and the rest is as it was. -/
theorem Least.lookup_raised {n : Nat} {q rest : PriorityQueue K P} {taken : List (K × P)}
    (taking : Least n q taken rest) (raise : P → P) (k : K) :
    (taken.foldl (fun q e => pushIncrease q e.1 (raise e.2)) rest).lookup k =
      if k ∈ taken.map Prod.fst then (q.lookup k).map raise else q.lookup k := by
  have absent : ∀ k ∈ taken.map Prod.fst, rest.lookup k = none := by
    intro k listed
    rw [taking.others, if_pos listed]
  rw [lookup_pushIncrease_all raise (fun k => q.lookup k) taking.nodup absent taking.found]
  by_cases listed : k ∈ taken.map Prod.fst
  · rw [if_pos listed, if_pos listed]
  · rw [if_neg listed, if_neg listed, taking.others, if_neg listed]

end PriorityQueue
end Subzero
