import Mathlib.Data.Finset.Union
import Mathlib.Logic.Relation
import Subzero.Lib.HashMap

/-! A work list that takes vertices out of a graph, breadth first, and that must not
meet a vertex twice. The children of a vertex are queued if they are still there, in
an arbitrary order. Whether it runs to its end in every order can be read off the
distances from the start. -/
namespace Subzero
variable {V : Type} [DecidableEq V] (children : V → Finset V)

section Queue
variable (order : Listing V)

/-- The children that are still there, as they are queued. -/
def queued (there : Finset V) (v : V) : List V :=
  order.list ((children v).filter (· ∈ there))

/-- The queue runs empty; `left` is what is still there at the end. -/
inductive Drains : List V → Finset V → Finset V → Prop where
  | done {there : Finset V} : Drains [] there there
  | pop {v : V} {queue : List V} {there left : Finset V} : v ∈ there →
      Drains (queue ++ queued children order there v) (there.erase v) left →
      Drains (v :: queue) there left

/-- What is queued while the vertices of a list are taken out. -/
def queuedAll : List V → Finset V → List V
  | [], _ => []
  | v :: vs, there => queued children order there v ++ queuedAll vs (there.erase v)

variable {children order}

theorem drains_cons {v : V} {queue : List V} {there left : Finset V} :
    Drains children order (v :: queue) there left ↔ v ∈ there ∧
      Drains children order (queue ++ queued children order there v) (there.erase v) left := by
  constructor
  · intro run
    cases run with
    | pop present rest => exact ⟨present, rest⟩
  · exact fun ⟨present, rest⟩ => .pop present rest

/-- Take out the first part of a queue at once. -/
theorem drains_append {vs queue : List V} {there left : Finset V} :
    Drains children order (vs ++ queue) there left ↔ (vs.Nodup ∧ ∀ v ∈ vs, v ∈ there) ∧
      Drains children order (queue ++ queuedAll children order vs there) (there \ vs.toFinset)
        left := by
  induction vs generalizing queue there with
  | nil => simp [queuedAll]
  | cons v vs ih =>
    have rest : there.erase v \ vs.toFinset = there \ (v :: vs).toFinset := by
      ext x
      simp only [Finset.mem_sdiff, Finset.mem_erase, List.mem_toFinset, List.mem_cons]
      tauto
    have apart : (vs.Nodup ∧ ∀ x ∈ vs, x ∈ there.erase v) ∧ v ∈ there ↔
        (v :: vs).Nodup ∧ ∀ x ∈ v :: vs, x ∈ there := by
      simp only [List.nodup_cons, List.forall_mem_cons, Finset.mem_erase]
      constructor
      · rintro ⟨⟨nodup, all⟩, present⟩
        exact ⟨⟨fun member => (all v member).1 rfl, nodup⟩, present, fun x hx => (all x hx).2⟩
      · rintro ⟨⟨fresh, nodup⟩, present, all⟩
        refine ⟨⟨nodup, fun x hx => ⟨?_, all x hx⟩⟩, present⟩
        rintro rfl
        exact fresh hx
    rw [List.cons_append, drains_cons, List.append_assoc, ih, rest, ← apart, queuedAll,
      List.append_assoc]
    tauto

theorem Drains.queue {queue : List V} {there left : Finset V}
    (run : Drains children order queue there left) :
    queue.Nodup ∧ ∀ v ∈ queue, v ∈ there := by
  rw [← List.append_nil queue] at run
  exact (drains_append.mp run).1

theorem Drains.subset {queue : List V} {there left : Finset V}
    (run : Drains children order queue there left) : left ⊆ there := by
  induction run with
  | done => exact subset_rfl
  | pop _ _ ih => exact ih.trans (Finset.erase_subset _ _)

theorem mem_queuedAll {vs : List V} {there : Finset V} {x : V}
    (member : x ∈ queuedAll children order vs there) : x ∈ there := by
  induction vs generalizing there with
  | nil => cases member
  | cons v vs ih =>
    rcases List.mem_append.mp member with first | later
    · exact (Finset.mem_filter.mp ((order.mem _ _).mp first)).2
    · exact Finset.mem_of_mem_erase (ih later)

/-- Where the list has no edges inside, its order does not matter to what is queued. -/
theorem queuedAll_eq {vs : List V} {there : Finset V} {next : V → Finset V}
    (same : ∀ v ∈ vs, ∀ now ⊆ there, there \ vs.toFinset ⊆ now →
      (children v).filter (· ∈ now) = next v) :
    queuedAll children order vs there = vs.flatMap fun v => order.list (next v) := by
  induction vs generalizing there with
  | nil => rfl
  | cons v vs ih =>
    have first := same v List.mem_cons_self there subset_rfl Finset.sdiff_subset
    rw [queuedAll, List.flatMap_cons, queued, first, ih]
    intro x hx now inside outside
    refine same x (List.mem_cons_of_mem v hx) now (inside.trans (Finset.erase_subset v there))
      (Finset.Subset.trans ?_ outside)
    intro y hy
    simp only [Finset.mem_sdiff, List.mem_toFinset, List.mem_cons, not_or] at hy
    simpa [hy.1, hy.2.1] using hy.2.2

end Queue

/-- An order that lists some elements before the others. -/
noncomputable def Listing.prefer (front : V → Prop) : Listing V where
  list s := by
    classical exact (s.filter front).toList ++ (s.filter (¬ front ·)).toList
  nodup s := by
    classical
    refine List.nodup_append.mpr ⟨Finset.nodup_toList _, Finset.nodup_toList _, ?_⟩
    rintro a ha b hb rfl
    simp only [Finset.mem_toList, Finset.mem_filter] at ha hb
    exact hb.2 ha.2
  mem s a := by
    classical
    simp only [List.mem_append, Finset.mem_toList, Finset.mem_filter]
    tauto

omit [DecidableEq V] in
theorem Listing.prefer_head {front : V → Prop} {p : V → Bool} {s : Finset V} {x : V}
    (member : x ∈ s) (kept : p x = true) (first : front x) :
    ∃ y rest, ((prefer front).list s).filter p = y :: rest ∧ y ∈ s ∧ front y := by
  classical
  have here : x ∈ (s.filter front).toList.filter p := by simp [member, kept, first]
  obtain ⟨y, rest, eq⟩ := List.exists_cons_of_ne_nil (List.ne_nil_of_mem here)
  have found : y ∈ (s.filter front).toList.filter p := by rw [eq]; exact List.mem_cons_self
  rw [List.mem_filter, Finset.mem_toList, Finset.mem_filter] at found
  refine ⟨y, rest ++ (s.filter (¬ front ·)).toList.filter p, ?_, found.1.1, found.1.2⟩
  simp only [prefer, List.filter_append, eq, List.cons_append]

omit [DecidableEq V] in
theorem Listing.prefer_cons {front : V → Prop} {s : Finset V} {x : V} (member : x ∈ s)
    (first : front x) : ∃ y rest, (prefer front).list s = y :: rest ∧ y ∈ s ∧ front y := by
  have head := @prefer_head V front (fun _ => true) s x member rfl first
  rwa [List.filter_eq_self.mpr fun _ _ => rfl] at head

section Levels
variable (start : Finset V)

/-- What lies within a distance of the start. -/
def reached : Nat → Finset V
  | 0 => start
  | k + 1 => reached k ∪ (reached k).biUnion children

/-- What lies at a distance from the start. -/
def level : Nat → Finset V
  | 0 => start
  | k + 1 => reached children start (k + 1) \ reached children start k

/-- What lies at a smaller distance. -/
def nearer : Nat → Finset V
  | 0 => ∅
  | k + 1 => reached children start k

/-- No two vertices at one distance are parent and child, or have a child at the next
distance in common. -/
def OrderlyAt (k : Nat) : Prop :=
  (∀ u ∈ level children start k, ∀ v ∈ level children start k, v ∉ children u) ∧
    ∀ u ∈ level children start k, ∀ u' ∈ level children start k,
      ∀ v ∈ level children start (k + 1), v ∈ children u → v ∈ children u' → u = u'

instance (k : Nat) : Decidable (OrderlyAt children start k) := inferInstanceAs (Decidable (_ ∧ _))

def Orderly : Prop := ∀ k, OrderlyAt children start k

variable {children start}

theorem mem_reached_succ {k : Nat} {v : V} : v ∈ reached children start (k + 1) ↔
    v ∈ reached children start k ∨ ∃ u ∈ reached children start k, v ∈ children u := by
  simp [reached]

theorem reached_eq (k : Nat) :
    reached children start k = nearer children start k ∪ level children start k := by
  cases k with
  | zero => simp [reached, nearer, level]
  | succ k =>
    rw [nearer, level, Finset.union_sdiff_of_subset]
    exact Finset.subset_union_left

theorem reached_mono {j k : Nat} (le : j ≤ k) :
    reached children start j ⊆ reached children start k :=
  monotone_nat_of_le_succ (fun _ => Finset.subset_union_left) le

theorem exists_reached {v : V} : (∃ k, v ∈ reached children start k) ↔
    ∃ r ∈ start, Relation.ReflTransGen (fun u v => v ∈ children u) r v := by
  constructor
  · rintro ⟨k, member⟩
    induction k generalizing v with
    | zero => exact ⟨v, member, .refl⟩
    | succ k ih =>
      rcases mem_reached_succ.mp member with near | ⟨u, near, edge⟩
      · exact ih near
      · obtain ⟨r, first, path⟩ := ih near
        exact ⟨r, first, path.tail edge⟩
  · rintro ⟨r, first, path⟩
    induction path with
    | refl => exact ⟨0, first⟩
    | tail _ edge ih =>
      obtain ⟨k, near⟩ := ih
      exact ⟨k + 1, mem_reached_succ.mpr (Or.inr ⟨_, near, edge⟩)⟩

theorem level_nearer {k : Nat} {v : V} (member : v ∈ level children start k) :
    v ∉ nearer children start k := by
  cases k with
  | zero => simp [nearer]
  | succ k => exact (Finset.mem_sdiff.mp member).2

theorem level_reached {k : Nat} {v : V} (member : v ∈ level children start k) :
    v ∈ reached children start k := by
  rw [reached_eq]
  exact Finset.mem_union_right _ member

theorem level_unique {j k : Nat} {v : V} (first : v ∈ level children start j)
    (second : v ∈ level children start k) : j = k := by
  have le : ∀ {i m : Nat}, v ∈ level children start i → v ∈ level children start m → ¬ i < m := by
    intro i m hi hm lt
    obtain ⟨m, rfl⟩ : ∃ n, m = n + 1 := ⟨m - 1, by omega⟩
    exact level_nearer hm (reached_mono (by omega : i ≤ m) (level_reached hi))
  have := le first second
  have := le second first
  omega

theorem mem_level_succ {k : Nat} {v : V} : v ∈ level children start (k + 1) ↔
    v ∉ reached children start k ∧ ∃ u ∈ level children start k, v ∈ children u := by
  rw [level, Finset.mem_sdiff, mem_reached_succ]
  constructor
  · rintro ⟨near | ⟨u, hu, edge⟩, far⟩
    · exact absurd near far
    · refine ⟨far, u, ?_, edge⟩
      rw [reached_eq] at hu
      rcases Finset.mem_union.mp hu with nearer_u | here
      · exfalso
        cases k with
        | zero => simp [nearer] at nearer_u
        | succ k => exact far (mem_reached_succ.mpr (Or.inr ⟨u, nearer_u, edge⟩))
      · exact here
  · rintro ⟨far, u, here, edge⟩
    exact ⟨Or.inr ⟨u, level_reached here, edge⟩, far⟩

theorem level_empty {n k : Nat} (empty : level children start n = ∅) (le : n ≤ k) :
    level children start k = ∅ := by
  induction k, le using Nat.le_induction with
  | base => exact empty
  | succ k _ ih =>
    ext v
    rw [mem_level_succ, ih]
    simp

theorem reached_of_empty {k : Nat} (empty : level children start k = ∅) (j : Nat) :
    reached children start j ⊆ nearer children start k := by
  have beyond : ∀ i, reached children start (k + i) = nearer children start k := by
    intro i
    rw [reached_eq, level_empty empty (Nat.le_add_right k i), Finset.union_empty]
    induction i with
    | zero => rfl
    | succ i ih =>
      rw [← ih, ← Nat.add_assoc, nearer, reached_eq, level_empty empty (Nat.le_add_right k i),
        Finset.union_empty]
  rw [← beyond j]
  exact reached_mono (Nat.le_add_left j k)

theorem orderly_of_empty {n : Nat} (empty : level children start n = ∅)
    (near : ∀ k < n, OrderlyAt children start k) : Orderly children start := by
  intro k
  rcases lt_or_ge k n with inside | beyond
  · exact near k inside
  · simp [OrderlyAt, level_empty empty beyond]

section Search
variable {order : Listing V} {all : Finset V}

theorem level_subset (inside : ∀ u, children u ⊆ all) (sub : start ⊆ all) (k : Nat) :
    level children start k ⊆ all := by
  cases k with
  | zero => exact sub
  | succ k =>
    intro v member
    obtain ⟨_, u, _, edge⟩ := mem_level_succ.mp member
    exact inside u edge

/-- The children of a level at the next distance, in the order of the level. -/
def nextLevel (order : Listing V) (children : V → Finset V) (start : Finset V) (k : Nat)
    (vs : List V) : List V :=
  vs.flatMap fun v => order.list ((children v).filter (· ∈ level children start (k + 1)))

theorem mem_nextLevel {k : Nat} {vs : List V} (set : vs.toFinset = level children start k) :
    (nextLevel order children start k vs).toFinset = level children start (k + 1) := by
  ext v
  simp only [nextLevel, List.mem_toFinset, List.mem_flatMap, order.mem, Finset.mem_filter]
  constructor
  · exact fun ⟨_, _, _, far⟩ => far
  · intro far
    obtain ⟨_, u, here, edge⟩ := mem_level_succ.mp far
    exact ⟨u, List.mem_toFinset.mp (set ▸ here), edge, far⟩

/-- A level without edges inside is taken out, and what is queued then is the next. -/
theorem drains_level (inside : ∀ u, children u ⊆ all) (sub : start ⊆ all) {k : Nat} {vs : List V}
    (set : vs.toFinset = level children start k)
    (flat : ∀ u ∈ level children start k, ∀ v ∈ level children start k, v ∉ children u)
    {left : Finset V} :
    Drains children order vs (all \ nearer children start k) left ↔ vs.Nodup ∧
      Drains children order (nextLevel order children start k vs)
        (all \ nearer children start (k + 1)) left := by
  have here : ∀ v ∈ vs, v ∈ level children start k := fun v hv => set ▸ List.mem_toFinset.mpr hv
  have next : queuedAll children order vs (all \ nearer children start k) =
      nextLevel order children start k vs := by
    refine queuedAll_eq fun v hv now before after => ?_
    ext x
    simp only [Finset.mem_filter, and_congr_right_iff, mem_level_succ, reached_eq k,
      Finset.mem_union, not_or]
    intro edge
    constructor
    · intro present
      exact ⟨⟨(Finset.mem_sdiff.mp (before present)).2, fun same => flat v (here v hv) x same edge⟩,
        v, here v hv, edge⟩
    · rintro ⟨⟨far, apart⟩, _⟩
      refine after ?_
      rw [set]
      exact Finset.mem_sdiff.mpr ⟨Finset.mem_sdiff.mpr ⟨inside v edge, far⟩, apart⟩
  have rest : (all \ nearer children start k) \ vs.toFinset =
      all \ nearer children start (k + 1) := by
    rw [set, sdiff_sdiff_left, nearer, reached_eq]
    rfl
  have present : ∀ v ∈ vs, v ∈ all \ nearer children start k := fun v hv =>
    Finset.mem_sdiff.mpr ⟨level_subset inside sub k (here v hv), level_nearer (here v hv)⟩
  have split := @drains_append V _ children order vs [] (all \ nearer children start k) left
  rw [List.append_nil, List.nil_append, next, rest] at split
  rw [split]
  exact ⟨fun h => ⟨h.1.1, h.2⟩, fun h => ⟨⟨h.1, present⟩, h.2⟩⟩

/-- From an orderly start the queue runs empty, and all that can be reached is gone. -/
theorem Orderly.drains (inside : ∀ u, children u ⊆ all) (sub : start ⊆ all)
    (orderly : Orderly children start) {k : Nat} {vs : List V} (nodup : vs.Nodup)
    (set : vs.toFinset = level children start k) :
    ∃ left, Drains children order vs (all \ nearer children start k) left ∧
      ∀ v, v ∈ left ↔ v ∈ all ∧ ∀ j, v ∉ reached children start j := by
  -- every level that is not empty makes the rest smaller
  induction size : (all \ nearer children start k).card using Nat.strong_induction_on
    generalizing k vs with
  | _ n ih =>
    by_cases empty : vs = []
    · subst empty
      have none_here : level children start k = ∅ := by rw [← set]; rfl
      refine ⟨_, .done, fun v => ?_⟩
      rw [Finset.mem_sdiff]
      refine and_congr_right fun _ =>
        ⟨fun far j near => far (reached_of_empty none_here j near), ?_⟩
      intro far near
      cases k with
      | zero => simp [nearer] at near
      | succ k => exact far k near
    · obtain ⟨flat, apart⟩ := orderly k
      have fewer : (all \ nearer children start (k + 1)).card < n := by
        obtain ⟨v, hv⟩ := List.exists_mem_of_ne_nil vs empty
        have here : v ∈ level children start k := set ▸ List.mem_toFinset.mpr hv
        rw [← size]
        refine Finset.card_lt_card ⟨fun x hx => ?_, fun sub' => ?_⟩
        · rw [Finset.mem_sdiff] at hx ⊢
          refine ⟨hx.1, fun near => hx.2 ?_⟩
          rw [nearer, reached_eq]
          exact Finset.mem_union_left _ near
        · have present := sub' (Finset.mem_sdiff.mpr
            ⟨level_subset inside sub k here, level_nearer here⟩)
          exact (Finset.mem_sdiff.mp present).2 (level_reached here)
      have next : (nextLevel order children start k vs).Nodup := by
        refine List.nodup_flatMap.mpr ⟨fun v _ => order.nodup _, ?_⟩
        refine nodup.pairwise_of_forall_ne fun u hu u' hu' ne x hx hx' => ne ?_
        rw [order.mem, Finset.mem_filter] at hx hx'
        exact apart u (set ▸ List.mem_toFinset.mpr hu) u' (set ▸ List.mem_toFinset.mpr hu') x hx.2
          hx.1 hx'.1
      obtain ⟨left, run, gone⟩ := ih _ fewer next (mem_nextLevel set) rfl
      exact ⟨left, (drains_level inside sub set flat).mpr ⟨nodup, run⟩, gone⟩

/-- The levels as they are queued. -/
def levelList (order : Listing V) (children : V → Finset V) (start : Finset V) (first : List V) :
    Nat → List V
  | 0 => first
  | k + 1 => nextLevel order children start k (levelList order children start first k)

theorem drains_levels (inside : ∀ u, children u ⊆ all) (sub : start ⊆ all) {first : List V}
    (lists : first.toFinset = start) {left : Finset V} (run : Drains children order first all left)
    {k : Nat}
    (flat : ∀ j < k, ∀ u ∈ level children start j, ∀ v ∈ level children start j, v ∉ children u) :
    Drains children order (levelList order children start first k) (all \ nearer children start k)
        left ∧
      (levelList order children start first k).toFinset = level children start k := by
  induction k with
  | zero => exact ⟨by simpa [levelList, nearer] using run, lists⟩
  | succ k ih =>
    obtain ⟨run_k, set⟩ := ih fun j lt => flat j (Nat.lt_succ_of_lt lt)
    exact ⟨((drains_level inside sub set (flat k (Nat.lt_succ_self k))).mp run_k).2,
      mem_nextLevel set⟩

end Search

/-- An edge from one level to the next. -/
def Descends (children : V → Finset V) (start : Finset V) (x y : V) : Prop :=
  ∃ k, x ∈ level children start k ∧ y ∈ level children start (k + 1) ∧ y ∈ children x

theorem exists_descent {k : Nat} {u : V} (here : u ∈ level children start k) :
    ∃ x ∈ start, Relation.ReflTransGen (Descends children start) x u := by
  induction k generalizing u with
  | zero => exact ⟨u, here, .refl⟩
  | succ k ih =>
    obtain ⟨_, v, before, edge⟩ := mem_level_succ.mp here
    obtain ⟨x, first, path⟩ := ih before
    exact ⟨x, first, path.tail ⟨k, before, here, edge⟩⟩

theorem descent_level {x u : V} (path : Relation.ReflTransGen (Descends children start) x u)
    {k : Nat} (here : x ∈ level children start k) : ∃ m, u ∈ level children start (k + m) := by
  induction path with
  | refl => exact ⟨0, here⟩
  | tail _ edge ih =>
    obtain ⟨m, before⟩ := ih
    obtain ⟨j, first, second, _⟩ := edge
    obtain rfl := level_unique before first
    exact ⟨m + 1, second⟩

end Levels

section Converse
variable {children} {start all : Finset V}

/-- The order that lists first what leads down to `u`. -/
noncomputable def towards (children : V → Finset V) (start : Finset V) (u : V) : Listing V :=
  .prefer fun x => Relation.ReflTransGen (Descends children start) x u

/-- A first queue for every order. It lists the start, and first what is preferred. -/
structure Starts (start : Finset V) (first : Listing V → List V) : Prop where
  lists : ∀ order, (first order).toFinset = start
  prefers : ∀ (front : V → Prop) (x : V), x ∈ start → front x →
    ∃ y rest, first (.prefer front) = y :: rest ∧ y ∈ start ∧ front y

/-- In the order towards `u` the queue of the level of `u` begins with `u`. -/
theorem levelList_towards {first : Listing V → List V} (starts : Starts start first) {k : Nat}
    {u : V} (here : u ∈ level children start k) :
    ∃ rest, levelList (towards children start u) children start
      (first (towards children start u)) k = u :: rest := by
  have heads : ∀ j ≤ k, ∃ x rest, levelList (towards children start u) children start
      (first (towards children start u)) j = x :: rest ∧
        x ∈ level children start j ∧ Relation.ReflTransGen (Descends children start) x u := by
    intro j
    induction j with
    | zero =>
      intro _
      obtain ⟨x, member, path⟩ := exists_descent here
      exact starts.prefers _ x member path
    | succ j ih =>
      intro le
      obtain ⟨x, rest, eq, before, path⟩ := ih (Nat.le_of_succ_le le)
      rcases path.cases_head with rfl | ⟨y, ⟨i, at_x, at_y, edge⟩, onward⟩
      · have := level_unique before here
        omega
      · obtain rfl := level_unique at_x before
        have child : y ∈ (children x).filter (· ∈ level children start (i + 1)) :=
          Finset.mem_filter.mpr ⟨edge, at_y⟩
        obtain ⟨z, more, list, member, path'⟩ := @Listing.prefer_cons V
          (fun x => Relation.ReflTransGen (Descends children start) x u) _ y child onward
        refine ⟨z, more ++ nextLevel (towards children start u) children start i rest, ?_,
          (Finset.mem_filter.mp member).2, path'⟩
        rw [levelList, eq, nextLevel, List.flatMap_cons, towards, list, List.cons_append]
        rfl
  obtain ⟨x, rest, eq, at_x, path⟩ := heads k le_rfl
  rcases path.cases_head with rfl | ⟨y, ⟨i, at_x', at_y, _⟩, onward⟩
  · exact ⟨rest, eq⟩
  · obtain rfl := level_unique at_x' at_x
    obtain ⟨m, beyond⟩ := descent_level onward at_y
    have := level_unique beyond here
    omega

/-- If the queue runs empty in every order, the start is orderly. -/
theorem orderly_of_drains (inside : ∀ u, children u ⊆ all) (sub : start ⊆ all)
    {first : Listing V → List V} (starts : Starts start first)
    (runs : ∀ order : Listing V, ∃ left, Drains children order (first order) all left) :
    Orderly children start := by
  have flat : ∀ k, ∀ u ∈ level children start k, ∀ v ∈ level children start k, v ∉ children u := by
    intro k
    induction k using Nat.strong_induction_on with
    | _ k ih =>
      intro u hu v hv edge
      -- `u` is taken out first, and `v` is queued again while it waits
      obtain ⟨left, run⟩ := runs (towards children start u)
      obtain ⟨run_k, set⟩ := drains_levels inside sub (starts.lists _) run ih
      obtain ⟨rest, eq⟩ := levelList_towards starts hu
      have waits : v = u ∨ v ∈ rest := by
        rw [← set, eq] at hv
        simpa using hv
      rw [eq, drains_cons] at run_k
      obtain ⟨nodup, present⟩ := run_k.2.queue
      have again : v ∈ queued children (towards children start u)
          (all \ nearer children start k) u :=
        (Listing.mem _ _ _).mpr (Finset.mem_filter.mpr ⟨edge, Finset.mem_sdiff.mpr
          ⟨level_subset inside sub k hv, level_nearer hv⟩⟩)
      rcases waits with rfl | waits
      · exact Finset.notMem_erase _ _ (present v (List.mem_append_right _ again))
      · exact (List.nodup_append.mp nodup).2.2 v waits v again rfl
  refine fun k => ⟨flat k, fun u hu u' hu' v hv edge edge' => ?_⟩
  by_contra ne
  let order : Listing V := .prefer fun _ => True
  obtain ⟨left, run⟩ := runs order
  obtain ⟨run_next, _⟩ := drains_levels inside sub (starts.lists _) run
    fun j (_ : j < k + 1) => flat j
  obtain ⟨_, set⟩ := drains_levels inside sub (starts.lists _) run fun j (_ : j < k) => flat j
  obtain ⟨_, apart⟩ := List.nodup_flatMap.mp run_next.queue.1
  have listed : ∀ x ∈ level children start k, x ∈ levelList order children start (first order) k :=
    fun x hx => List.mem_toFinset.mp (set.symm ▸ hx)
  have : Std.Symm (Function.onFun List.Disjoint fun x => order.list
      ((children x).filter (· ∈ level children start (k + 1)))) := ⟨fun _ _ h => h.symm⟩
  have disjoint := apart.forall (listed u hu) (listed u' hu') ne
  exact disjoint ((order.mem _ _).mpr (Finset.mem_filter.mpr ⟨edge, hv⟩))
    ((order.mem _ _).mpr (Finset.mem_filter.mpr ⟨edge', hv⟩))

end Converse
end Subzero
