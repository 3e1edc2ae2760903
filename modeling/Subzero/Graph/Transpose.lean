import Subzero.Graph.Removal

/-! A DAG whose inverted edges are exactly its edges turned round. Every removal of a
vertex succeeds there, and takes out the vertex with its edges and nothing else. -/
namespace Subzero.DAG
variable {V : Type} [DecidableEq V]

structure Transposed (d : DAG V) : Prop where
  edges : ∀ v p, d.Parent v p ↔ d.Child p v
  keys : ∀ v, v ∈ d.g ↔ v ∈ d.inv

theorem Transposed.new : Transposed (DAG.new : DAG V) :=
  ⟨fun _ _ => ⟨fun h => absurd h.mem Finmap.notMem_empty,
    fun h => absurd h.mem Finmap.notMem_empty⟩, fun _ => Iff.rfl⟩

theorem Transposed.of_edges {d d' : DAG V} (transposed : Transposed d) (g : d'.g = d.g)
    (inv : d'.inv = d.inv) : Transposed d' := by
  refine ⟨fun v p => ?_, fun v => by rw [g, inv, transposed.keys]⟩
  rw [parent_iff, child_iff, g, inv]
  exact transposed.edges v p

def Acyclic (d : DAG V) : Prop := ∀ v, ¬ Relation.TransGen d.Parent v v

theorem Acyclic.of_rank {d : DAG V} (rank : V → Nat)
    (less : ∀ v p, d.Parent v p → rank p < rank v) : Acyclic d := by
  have down : ∀ v p, Relation.TransGen d.Parent v p → rank p < rank v := by
    intro v p path
    induction path with
    | single edge => exact less _ _ edge
    | tail _ edge ih => exact (less _ _ edge).trans ih
  exact fun v cycle => lt_irrefl _ (down v v cycle)

/-- The children of a vertex as a set. -/
def childSet (d : DAG V) (v : V) : Finset V := ((d.inv.lookup v).getD []).toFinset

theorem mem_childSet {d : DAG V} {v c : V} : c ∈ d.childSet v ↔ d.Child v c := by
  rw [child_iff, childSet, List.mem_toFinset]
  cases d.inv.lookup v <;> simp

instance (d : DAG V) : Decidable d.Transposed :=
  decidable_of_iff (d.g.keys = d.inv.keys ∧
    (∀ v ∈ d.g.keys, ∀ l ∈ d.g.lookup v, ∀ p ∈ l, v ∈ d.childSet p) ∧
    ∀ p ∈ d.inv.keys, ∀ v ∈ d.childSet p, ∃ l ∈ d.g.lookup v, p ∈ l) <| by
  constructor
  · rintro ⟨keys, down, up⟩
    refine ⟨fun v p => ⟨?_, fun edge => ?_⟩, fun v => ?_⟩
    · rintro ⟨l, found, member⟩
      have present := HashMap.mem_keys_of_lookup found
      exact mem_childSet.mp (down v present l found p member)
    · obtain ⟨l, found, member⟩ := up p (Finmap.mem_keys.mpr edge.mem) v (mem_childSet.mpr edge)
      exact ⟨l, found, member⟩
    · rw [← Finmap.mem_keys, keys, Finmap.mem_keys]
  · intro transposed
    refine ⟨?_, fun v _ l found p member => ?_, fun p _ v child => ?_⟩
    · ext v
      rw [Finmap.mem_keys, Finmap.mem_keys, transposed.keys]
    · exact mem_childSet.mpr ((transposed.edges v p).mp ⟨l, found, member⟩)
    · exact (transposed.edges v p).mpr (mem_childSet.mp child)

/-- Adjacency lists without the vertices `R`. -/
def Trimmed (R : Finset V) (m m' : HashMap V (List V)) : Prop :=
  ∀ k, m'.lookup k = if k ∈ R then none else (m.lookup k).map (·.filter (· ∉ R))

/-- `d'` is `d` without the vertices `R`. -/
structure Cut (R : Finset V) (d d' : DAG V) : Prop where
  g : Trimmed R d.g d'.g
  inv : Trimmed R d.inv d'.inv

section Trimmed
variable {R R' : Finset V} {m m' m'' : HashMap V (List V)}

theorem Trimmed.refl (m : HashMap V (List V)) : Trimmed ∅ m m := by
  intro k
  cases m.lookup k <;> simp

theorem Trimmed.trans (first : Trimmed R m m') (second : Trimmed R' m' m'') :
    Trimmed (R ∪ R') m m'' := by
  intro k
  rw [second, first]
  by_cases h : k ∈ R <;> by_cases h' : k ∈ R' <;> cases m.lookup k <;>
    simp [h, h', List.filter_filter, Bool.and_comm]

theorem Trimmed.mem (trim : Trimmed R m m') {k : V} : k ∈ m' ↔ k ∈ m ∧ k ∉ R := by
  simp only [Finmap.mem_iff, trim k]
  by_cases h : k ∈ R <;> cases m.lookup k <;> simp [h]

theorem Trimmed.edge (trim : Trimmed R m m') {k x : V} :
    Edge m'.lookup k x ↔ Edge m.lookup k x ∧ k ∉ R ∧ x ∉ R := by
  simp only [Edge, trim k]
  by_cases h : k ∈ R <;> cases m.lookup k <;> simp [h]

/-- A loop over all lists with a vertex drops it from every list. -/
theorem drop_trimmed {vx : V} {keys : List V}
    (done : (HashMap.updateKeys (·.filter (· ≠ vx)) keys m).1 = true)
    (all : ∀ k, k ≠ vx → Edge m.lookup k vx → k ∈ keys) :
    Trimmed {vx} m ((HashMap.updateKeys (·.filter (· ≠ vx)) keys m).2.erase vx) := by
  intro k
  simp only [HashMap.lookup_erase_ite, Finset.mem_singleton]
  by_cases hk : k = vx
  · simp [hk]
  · rw [if_neg hk, if_neg hk, HashMap.updateKeys_lookup _ (fun l => by simp) keys m done k]
    by_cases listed : k ∈ keys
    · simp [listed]
    · cases found : m.lookup k with
      | none => simp
      | some l =>
        have absent : ∀ x ∈ l, x ≠ vx := by
          rintro x member rfl
          exact listed (all k hk ⟨l, found, member⟩)
        have same : l.filter (fun x => ¬ x = vx) = l :=
          List.filter_eq_self.mpr fun x hx => by simpa using absent x hx
        simp only [listed, if_false, Option.map_some, same]

end Trimmed

section Cut
variable {R R' : Finset V} {d d' d'' : DAG V}

theorem Cut.refl (d : DAG V) : Cut ∅ d d := ⟨.refl _, .refl _⟩

theorem Cut.trans (first : Cut R d d') (second : Cut R' d' d'') : Cut (R ∪ R') d d'' :=
  ⟨first.g.trans second.g, first.inv.trans second.inv⟩

theorem Cut.parent (cut : Cut R d d') {v p : V} :
    d'.Parent v p ↔ d.Parent v p ∧ v ∉ R ∧ p ∉ R := cut.g.edge

theorem Cut.child (cut : Cut R d d') {v c : V} :
    d'.Child v c ↔ d.Child v c ∧ v ∉ R ∧ c ∉ R := cut.inv.edge

theorem Cut.transposed (cut : Cut R d d') (transposed : Transposed d) : Transposed d' where
  edges v p := by
    rw [cut.parent, cut.child, transposed.edges]
    tauto
  keys v := by rw [cut.g.mem, cut.inv.mem, transposed.keys]

end Cut

theorem Transposed.child_mem {d : DAG V} (transposed : Transposed d) {v c : V}
    (edge : d.Child v c) : c ∈ d.g := ((transposed.edges c v).mpr edge).mem

/-- A vertex that is there can be removed, and its children are returned. -/
theorem removeVx_cut {d : DAG V} (transposed : Transposed d) {vx : V} (present : vx ∈ d.g) :
    ∃ d', d.removeVx vx = .ok (d.childSet vx) d' ∧ Cut {vx} d d' := by
  obtain ⟨children, known⟩ := Finmap.mem_iff.mp ((transposed.keys vx).mp present)
  have first : (HashMap.updateKeys (·.filter (· ≠ vx)) children d.g).1 = true :=
    (HashMap.updateKeys_flag _ _ _).mpr fun c listed =>
      transposed.child_mem ⟨children, known, listed⟩
  have trim : Trimmed {vx} d.g
      ((HashMap.updateKeys (·.filter (· ≠ vx)) children d.g).2.erase vx) := by
    refine drop_trimmed first fun k _ edge => ?_
    obtain ⟨cs, found, member⟩ := (transposed.edges k vx).mp edge
    obtain rfl : children = cs := Option.mem_unique known found
    exact member
  have own : ∃ parents, (HashMap.updateKeys (·.filter (· ≠ vx)) children d.g).2.lookup vx =
      some parents := Finmap.mem_iff.mp ((HashMap.updateKeys_mem _ _ _ _).mpr present)
  obtain ⟨parents, own⟩ := own
  have kept : ∀ p, p ≠ vx → d.Parent vx p → p ∈ parents := by
    rintro p ne ⟨es, found, member⟩
    obtain ⟨es', own', _, keep⟩ := (drop_thinned vx children d.g).list vx es found
    obtain rfl : parents = es' := Option.mem_unique own own'
    exact keep p member ne
  have second : (HashMap.updateKeys (·.filter (· ≠ vx)) parents d.inv).1 = true := by
    refine (HashMap.updateKeys_flag _ _ _).mpr fun p listed => ?_
    obtain ⟨es, found, sub⟩ := (drop_thinned vx children d.g).back own
    exact ((transposed.edges vx p).mp ⟨es, found, sub p listed⟩).mem
  have trim' : Trimmed {vx} d.inv
      ((HashMap.updateKeys (·.filter (· ≠ vx)) parents d.inv).2.erase vx) :=
    drop_trimmed second fun k ne edge => kept k ne ((transposed.edges vx k).mpr edge)
  generalize written : HashMap.updateKeys (·.filter (· ≠ vx)) children d.g = r at first trim own
  obtain ⟨done, g⟩ := r
  cases first
  generalize written' : HashMap.updateKeys (·.filter (· ≠ vx)) parents d.inv = r at second trim'
  obtain ⟨done, inv⟩ := r
  cases second
  refine ⟨{ d with g := g.erase vx, inv := inv.erase vx }, ?_, trim, trim'⟩
  simp only at own
  simp only [removeVx, childSet, known, written, own, written', Option.getD_some]

end Subzero.DAG
