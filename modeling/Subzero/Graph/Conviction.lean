import Mathlib.Algebra.BigOperators.Group.Finset.Piecewise
import Mathlib.Algebra.GroupWithZero.Nat
import Mathlib.Algebra.Order.BigOperators.Group.Finset
import Subzero.Graph.Mirror

/-! Conviction as a sum over the progeny, and how far the `u8` it is kept in goes. -/
namespace Subzero.DAG
variable {V : Type} [DecidableEq V]
variable {v x : V} {d d' : DAG V}

/-- The vertices whose chits are summed: a vertex and its progeny. -/
def progeny (d : DAG V) (v : V) : Finset V :=
  (walk d.inv.lookup pushQueue (d.inv.keys.card + 1) [v] {v}).visited.toFinset

def chitOf (d : DAG V) (v : V) : Nat := (d.chits.lookup v).getD 0

def weight (d : DAG V) (v : V) : Nat := ∑ x ∈ d.progeny v, d.chitOf x

theorem sumChits_ok {vxs : List V} {n c : Nat} (low : n < 2 ^ 8) :
    d.sumChits vxs n = .ok c ↔
      (∀ x ∈ vxs, x ∈ d.chits) ∧ n + (vxs.map d.chitOf).sum < 2 ^ 8 ∧
        c = n + (vxs.map d.chitOf).sum := by
  induction vxs generalizing n with
  | nil =>
    simp only [sumChits, Except.ok.injEq, List.map_nil, List.sum_nil, Nat.add_zero]
    constructor
    · rintro rfl
      exact ⟨by simp, low, rfl⟩
    · exact fun h => h.2.2.symm
  | cons x vxs ih =>
    simp only [sumChits, getChit]
    cases found : d.chits.lookup x with
    | none =>
      have absent : x ∉ d.chits := Finmap.lookup_eq_none.mp found
      simp [absent]
    | some chit =>
      have present : x ∈ d.chits := Finmap.mem_of_lookup_eq_some found
      have own : d.chitOf x = chit := by simp [chitOf, found]
      simp only [List.map_cons, List.sum_cons, own, List.forall_mem_cons, present, true_and,
        ← Nat.add_assoc]
      split
      · rename_i fits
        exact ih fits
      · rename_i tooMany
        simp only [reduceCtorEq, false_iff]
        rintro ⟨_, small, _⟩
        exact tooMany (by omega)

theorem sumChits_overflow {vxs : List V} {n : Nat} (low : n < 2 ^ 8)
    (known : ∀ x ∈ vxs, x ∈ d.chits) (tooMany : 2 ^ 8 ≤ n + (vxs.map d.chitOf).sum) :
    d.sumChits vxs n = .error .chitOverflow := by
  induction vxs generalizing n with
  | nil =>
    simp only [List.map_nil, List.sum_nil, Nat.add_zero] at tooMany
    omega
  | cons x vxs ih =>
    obtain ⟨chit, found⟩ := Finmap.mem_iff.mp (known x List.mem_cons_self)
    have own : d.chitOf x = chit := by simp [chitOf, found]
    simp only [List.map_cons, List.sum_cons, own, ← Nat.add_assoc] at tooMany
    simp only [sumChits, getChit, found]
    split
    · rename_i fits
      exact ih fits (fun y hy => known y (List.mem_cons_of_mem x hy)) tooMany
    · rfl

section Mirrored
variable {d : DAG V} (mirrored : Mirrored d)
include mirrored

theorem Mirrored.closedInv : Closed d.inv.lookup d.inv.keys where
  total := fun _ hv => HashMap.mem_keys_iff.mp hv
  inside := fun _ _ e edge =>
    Finmap.mem_keys.mpr (mirrored.entry e (mirrored.child_mem edge))

theorem Mirrored.walk_inv (present : v ∈ d.inv) :
    let r := walk d.inv.lookup pushQueue (d.inv.keys.card + 1) [v] {v}
    r.stuck = none ∧ r.visited.Nodup ∧
      ∀ x, x ∈ r.visited ↔ Relation.ReflTransGen d.Child v x :=
  walk_from pushQueue_perm mirrored.closedInv v (Finmap.mem_keys.mpr present) _ (Nat.le_succ _)

theorem Mirrored.mem_progeny (present : v ∈ d.inv) :
    x ∈ d.progeny v ↔ Relation.ReflTransGen d.Child v x := by
  rw [progeny, List.mem_toFinset]
  exact (mirrored.walk_inv present).2.2 x

theorem Mirrored.sum_visited (present : v ∈ d.inv) :
    ((walk d.inv.lookup pushQueue (d.inv.keys.card + 1) [v] {v}).visited.map d.chitOf).sum =
      d.weight v := by
  rw [weight, progeny, List.sum_toFinset _ (mirrored.walk_inv present).2.1]

theorem Mirrored.conviction_ok {c : Nat} (present : v ∈ d.inv)
    (computed : d.conviction v = some (.ok c)) : c = d.weight v ∧ d.weight v < 2 ^ 8 := by
  have stuck := (mirrored.walk_inv present).1
  have sum := mirrored.sum_visited present
  simp only [conviction, stuck, Option.toList_none, List.append_nil] at computed
  split at computed
  · cases computed
  · rename_i added _
    cases computed
    obtain ⟨_, small, eq⟩ := (sumChits_ok (by decide)).mp added
    rw [Nat.zero_add, sum] at small eq
    exact ⟨eq, small⟩
  · rename_i absurd
    cases absurd

/-- Where all chits are known, the conviction is the weight or an overflow. -/
theorem Mirrored.conviction_eq (present : v ∈ d.inv) (known : ∀ x ∈ d.progeny v, x ∈ d.chits) :
    d.conviction v =
      some (if d.weight v < 2 ^ 8 then .ok (d.weight v) else .error .chitOverflow) := by
  have stuck := (mirrored.walk_inv present).1
  have sum := mirrored.sum_visited present
  have chits : ∀ x ∈ (walk d.inv.lookup pushQueue (d.inv.keys.card + 1) [v] {v}).visited,
      x ∈ d.chits := fun x member => known x (List.mem_toFinset.mpr member)
  simp only [conviction, stuck, Option.toList_none, List.append_nil]
  by_cases fits : d.weight v < 2 ^ 8
  · have added := (sumChits_ok (n := 0) (c := d.weight v) (by decide)).mpr
      ⟨chits, by rw [sum, Nat.zero_add]; exact fits, by rw [sum, Nat.zero_add]⟩
    simp only [added, fits, if_true]
  · have failed := sumChits_overflow (n := 0) (by decide) chits
      (by rw [sum, Nat.zero_add]; exact Nat.not_lt.mp fits)
    simp only [failed, fits, if_false]

theorem Mirrored.mem_progeny_iff (present : v ∈ d.g) : x ∈ d.progeny v ↔ d.Ancestor x v := by
  have turned : d.Parent = Function.swap d.Child := by
    funext a b
    exact propext ⟨mirrored.back a b, mirrored.mirror a b⟩
  rw [mirrored.mem_progeny (mirrored.entry v present), Ancestor, turned,
    Relation.reflTransGen_swap]

theorem Mirrored.progeny_mem (present : v ∈ d.g) (member : x ∈ d.progeny v) : x ∈ d.g := by
  rw [mirrored.mem_progeny (mirrored.entry v present)] at member
  rcases member.cases_tail with rfl | ⟨y, _, child⟩
  · exact present
  · exact mirrored.child_mem child

end Mirrored

theorem weight_mono (more : d.progeny v ⊆ d'.progeny v)
    (chits : ∀ x ∈ d.progeny v, d.chitOf x ≤ d'.chitOf x) : d.weight v ≤ d'.weight v :=
  (Finset.sum_le_sum chits).trans (Finset.sum_le_sum_of_subset more)

theorem setChit_one {root : V} {u : Unit} (bits : ∀ v c, d.chits.lookup v = some c → c ≤ 1)
    (done : d.setChit root 1 = .ok u d') :
    d'.chits = d.chits.insert root 1 ∧
      ∀ x, d'.chitOf x = d.chitOf x + if x = root then 1 else 0 := by
  have old : d.chitOf root = 0 ∧ d'.chits = d.chits.insert root 1 := by
    unfold setChit at done
    split at done
    · rename_i c found
      split at done
      · cases done
      · rename_i other
        cases done
        have bit := bits root c found
        refine ⟨?_, rfl⟩
        simp only [chitOf, found, Option.getD_some]
        omega
    · rename_i absent
      cases done
      exact ⟨by simp [chitOf, absent], rfl⟩
  refine ⟨old.2, fun x => ?_⟩
  by_cases here : x = root
  · subst here
    rw [old.1, if_pos rfl]
    simp [chitOf, old.2]
  · rw [if_neg here]
    simp [chitOf, old.2, Finmap.lookup_insert_of_ne, here]

/-- A new chit adds one to the weight of the vertices that have it in their progeny. -/
theorem weight_setChit {root v : V} {u : Unit} (bits : ∀ v c, d.chits.lookup v = some c → c ≤ 1)
    (done : d.setChit root 1 = .ok u d') :
    d'.weight v = d.weight v + if root ∈ d.progeny v then 1 else 0 := by
  have inv := (setChit_edges (congrArg Outcome.state? done)).2
  have chits := (setChit_one bits done).2
  have same : d'.progeny v = d.progeny v := by rw [progeny, progeny, inv]
  rw [weight, weight, same]
  simp only [chits, Finset.sum_add_distrib, Finset.sum_ite_eq']

end Subzero.DAG
