import Mathlib.Data.Finset.Card
import Mathlib.Logic.Relation

/-! Graph traversal with a work list. A vertex is marked when it is put on the
list, so it is put there once; whether the list is used as a stack or as a queue
is a parameter. The adjacency function is partial: the traversal is stuck at a
vertex that has no entry. -/
namespace Subzero
variable {V : Type} [DecidableEq V]
variable {K done : Finset V} {v : V}

/-- The neighbours that are not marked yet, in order and without repetition. -/
def unmarked : Finset V → List V → List V
  | _, [] => []
  | seen, e :: es => if e ∈ seen then unmarked seen es else e :: unmarked (insert e seen) es

/-- What a traversal visits, and the vertex it got stuck at, if any. -/
structure Walk (V : Type) where
  visited : List V
  stuck : Option V

/-- Take a vertex off the list, mark its neighbours and put the new ones on it. -/
def walk (adj : V → Option (List V)) (join : List V → List V → List V) :
    Nat → List V → Finset V → Walk V
  | 0, _, _ => ⟨[], none⟩
  | _ + 1, [], _ => ⟨[], none⟩
  | n + 1, v :: work, seen =>
    match adj v with
    | none => ⟨[], some v⟩
    | some es =>
      let next := walk adj join n (join (unmarked (insert v seen) es) work)
        (insert v seen ∪ es.toFinset)
      ⟨v :: next.visited, next.stuck⟩

/-- One step along an edge. -/
def Edge (adj : V → Option (List V)) (a b : V) : Prop := ∃ es, adj a = some es ∧ b ∈ es

/-- A finite set of vertices that the edges never leave. -/
structure Closed (adj : V → Option (List V)) (K : Finset V) : Prop where
  total : ∀ v ∈ K, ∃ es, adj v = some es
  inside : ∀ v ∈ K, ∀ e, Edge adj v e → e ∈ K

theorem mem_unmarked (seen : Finset V) (es : List V) (e : V) :
    e ∈ unmarked seen es ↔ e ∈ es ∧ e ∉ seen := by
  induction es generalizing seen with
  | nil => simp [unmarked]
  | cons a es ih =>
    unfold unmarked
    split
    · rename_i marked
      rw [ih, List.mem_cons]
      constructor
      · exact fun h => ⟨Or.inr h.1, h.2⟩
      · rintro ⟨rfl | h, hn⟩
        · exact absurd marked hn
        · exact ⟨h, hn⟩
    · rename_i fresh
      rw [List.mem_cons, ih, List.mem_cons, Finset.mem_insert, not_or]
      constructor
      · rintro (rfl | ⟨h, _, hn⟩)
        · exact ⟨Or.inl rfl, fresh⟩
        · exact ⟨Or.inr h, hn⟩
      · rintro ⟨rfl | h, hn⟩
        · exact Or.inl rfl
        · by_cases he : e = a
          · exact Or.inl he
          · exact Or.inr ⟨h, he, hn⟩

theorem nodup_unmarked (seen : Finset V) (es : List V) : (unmarked seen es).Nodup := by
  induction es generalizing seen with
  | nil => simp [unmarked]
  | cons a es ih =>
    unfold unmarked
    split
    · exact ih seen
    · refine List.nodup_cons.mpr ⟨?_, ih _⟩
      simp [mem_unmarked]

section Walk
variable {adj : V → Option (List V)} {join : List V → List V → List V}
  (perm : ∀ fresh work, (join fresh work).Perm (fresh ++ work))
include perm

theorem walk_sound (n : Nat) (work : List V) (seen : Finset V) (x : V)
    (h : x ∈ (walk adj join n work seen).visited) :
    (∃ w ∈ work, Relation.ReflTransGen (Edge adj) w x) ∧ ∃ es, adj x = some es := by
  induction n generalizing work seen with
  | zero => simp [walk] at h
  | succ n ih =>
    cases work with
    | nil => simp [walk] at h
    | cons v work =>
      cases hv : adj v with
      | none => simp [walk, hv] at h
      | some es =>
        simp only [walk, hv, List.mem_cons] at h
        rcases h with rfl | h
        · exact ⟨⟨x, List.mem_cons_self, .refl⟩, es, hv⟩
        · obtain ⟨⟨w, hw, path⟩, entry⟩ := ih _ _ h
          refine ⟨?_, entry⟩
          rcases List.mem_append.mp ((perm _ _).mem_iff.mp hw) with hw | hw
          · have edge : Edge adj v w := ⟨es, hv, ((mem_unmarked _ _ _).mp hw).1⟩
            exact ⟨v, List.mem_cons_self, .head edge path⟩
          · exact ⟨w, List.mem_cons_of_mem v hw, path⟩

/-- The state of a traversal that has visited `done` and has `work` to go. -/
structure Midway (adj : V → Option (List V)) (K done : Finset V) (work : List V) : Prop where
  nodup : work.Nodup
  inside : ∀ v ∈ work, v ∈ K
  fresh : ∀ v ∈ work, v ∉ done
  explored : ∀ v ∈ done, ∀ e, Edge adj v e → e ∈ done ∨ e ∈ work

omit perm in
theorem mem_unmarked_edge (done : Finset V) (v : V) (work es : List V) (hes : adj v = some es)
    (x : V) :
    x ∈ unmarked (insert v (done ∪ (v :: work).toFinset)) es ↔
      Edge adj v x ∧ x ≠ v ∧ x ∉ done ∧ x ∉ work := by
  rw [mem_unmarked]
  constructor
  · rintro ⟨hx, hn⟩
    simp only [Finset.mem_insert, Finset.mem_union, List.mem_toFinset, List.mem_cons] at hn
    refine ⟨⟨es, hes, hx⟩, ?_, ?_, ?_⟩ <;> intro h <;> exact hn (by simp [h])
  · rintro ⟨⟨es', hes', hx⟩, hv, hd, hw⟩
    rw [hes] at hes'
    cases hes'
    exact ⟨hx, by simp [hv, hd, hw]⟩

theorem Midway.next {work : List V} (closed : Closed adj K) (mid : Midway adj K done (v :: work))
    (es : List V) (hes : adj v = some es) :
    Midway adj K (insert v done)
      (join (unmarked (insert v (done ∪ (v :: work).toFinset)) es) work) := by
  have parts := List.nodup_cons.mp mid.nodup
  have marks := mem_unmarked_edge done v work es hes
  have mem : ∀ x, x ∈ join (unmarked (insert v (done ∪ (v :: work).toFinset)) es) work ↔
      (Edge adj v x ∧ x ≠ v ∧ x ∉ done ∧ x ∉ work) ∨ x ∈ work := by
    intro x
    rw [(perm _ _).mem_iff, List.mem_append, marks]
  constructor
  · rw [(perm _ _).nodup_iff, List.nodup_append]
    refine ⟨nodup_unmarked _ _, parts.2, ?_⟩
    rintro a ha b hb rfl
    exact ((marks a).mp ha).2.2.2 hb
  · intro x hx
    rcases (mem x).mp hx with ⟨edge, _⟩ | hw
    · exact closed.inside v (mid.inside v List.mem_cons_self) x edge
    · exact mid.inside x (List.mem_cons_of_mem v hw)
  · intro x hx
    rw [Finset.mem_insert, not_or]
    rcases (mem x).mp hx with ⟨_, hv, hd, _⟩ | hw
    · exact ⟨hv, hd⟩
    · refine ⟨?_, mid.fresh x (List.mem_cons_of_mem v hw)⟩
      rintro rfl
      exact parts.1 hw
  · intro x hx e edge
    rw [mem, Finset.mem_insert]
    by_cases hev : e = v
    · exact Or.inl (Or.inl hev)
    by_cases hed : e ∈ done
    · exact Or.inl (Or.inr hed)
    by_cases hew : e ∈ work
    · exact Or.inr (Or.inr hew)
    rcases Finset.mem_insert.mp hx with rfl | hx
    · exact Or.inr (Or.inl ⟨edge, hev, hed, hew⟩)
    · rcases mid.explored x hx e edge with h | h
      · exact absurd h hed
      · rcases List.mem_cons.mp h with h | h
        · exact absurd h hev
        · exact absurd h hew

omit perm in
/-- The marks are the visited vertices and the listed ones. -/
theorem marks_next (done : Finset V) (v : V) (work es : List V)
    (spread : (join (unmarked (insert v (done ∪ (v :: work).toFinset)) es) work).Perm
      (unmarked (insert v (done ∪ (v :: work).toFinset)) es ++ work)) :
    insert v (done ∪ (v :: work).toFinset) ∪ es.toFinset =
      insert v done ∪
        (join (unmarked (insert v (done ∪ (v :: work).toFinset)) es) work).toFinset := by
  ext x
  have h := mem_unmarked (insert v (done ∪ (v :: work).toFinset)) es x
  simp only [Finset.mem_union, Finset.mem_insert, List.mem_toFinset, List.mem_cons,
    spread.mem_iff, List.mem_append] at h ⊢
  tauto

omit perm in
theorem card_sdiff_insert_lt (inside : v ∈ K) (fresh : v ∉ done) :
    (K \ insert v done).card < (K \ done).card := by
  apply Finset.card_lt_card
  refine Finset.ssubset_iff_subset_ne.mpr
    ⟨Finset.sdiff_subset_sdiff subset_rfl (Finset.subset_insert v done), ?_⟩
  intro same
  have member : v ∈ K \ insert v done := same ▸ Finset.mem_sdiff.mpr ⟨inside, fresh⟩
  simp at member

/-- Enough fuel is one more than the number of vertices that have an entry: with
more of it the traversal is the same, whether or not it gets stuck. -/
theorem walk_fuel (entries : ∀ v es, adj v = some es → v ∈ K) (n : Nat) (done : Finset V)
    (work : List V) (nodup : work.Nodup) (fresh : ∀ v ∈ work, v ∉ done)
    (fuel : (K \ done).card < n) :
    walk adj join (n + 1) work (done ∪ work.toFinset) =
      walk adj join n work (done ∪ work.toFinset) := by
  induction n generalizing done work with
  | zero => omega
  | succ n ih =>
    cases work with
    | nil => rfl
    | cons v work =>
      cases hv : adj v with
      | none => simp [walk, hv]
      | some es =>
        have parts := List.nodup_cons.mp nodup
        have marks := mem_unmarked_edge done v work es hv
        have shrink := card_sdiff_insert_lt (entries v es hv) (fresh v List.mem_cons_self)
        rw [walk, walk]
        simp only [hv]
        rw [marks_next done v work es (perm _ _)]
        rw [ih (insert v done) _ ?_ ?_ (by omega)]
        · rw [(perm _ _).nodup_iff, List.nodup_append]
          refine ⟨nodup_unmarked _ _, parts.2, ?_⟩
          rintro a ha b hb rfl
          exact ((marks a).mp ha).2.2.2 hb
        · intro x hx
          rw [Finset.mem_insert, not_or]
          rcases List.mem_append.mp ((perm _ _).mem_iff.mp hx) with new | old
          · exact ⟨((marks x).mp new).2.1, ((marks x).mp new).2.2.1⟩
          · refine ⟨?_, fresh x (List.mem_cons_of_mem v old)⟩
            rintro rfl
            exact parts.1 old

theorem walk_fuel_from (entries : ∀ v es, adj v = some es → v ∈ K) (v : V) (more : Nat) :
    walk adj join (K.card + 1 + more) [v] {v} = walk adj join (K.card + 1) [v] {v} := by
  have marks : (∅ : Finset V) ∪ [v].toFinset = {v} := by simp
  induction more with
  | zero => rfl
  | succ more ih =>
    have same := walk_fuel perm entries (K.card + 1 + more) ∅ [v] (List.nodup_singleton v)
      (fun x _ => Finset.notMem_empty x) (by rw [Finset.sdiff_empty]; omega)
    rw [marks] at same
    rw [← Nat.add_assoc, same, ih]

/-- What a traversal visits: the listed vertices and, with each vertex, its neighbours, each of
them once and none that was done before. -/
structure Explored (adj : V → Option (List V)) (K done : Finset V) (work visited : List V) :
    Prop where
  nodup : visited.Nodup
  range : ∀ x ∈ visited, x ∈ K ∧ x ∉ done
  covers : ∀ x ∈ work, x ∈ visited
  closed : ∀ x ∈ visited, ∀ e, Edge adj x e → e ∈ done ∨ e ∈ visited

omit perm in
/-- A vertex is visited before what is visited after it. -/
theorem Explored.cons {work next visited : List V} (mid : Midway adj K done (v :: work))
    (mid' : Midway adj K (insert v done) next) (keeps : ∀ x ∈ work, x ∈ next)
    (later : Explored adj K (insert v done) next visited) :
    Explored adj K done (v :: work) (v :: visited) := by
  constructor
  · refine List.nodup_cons.mpr ⟨fun again => ?_, later.nodup⟩
    exact (later.range v again).2 (Finset.mem_insert_self v done)
  · intro x hx
    rcases List.mem_cons.mp hx with rfl | hx
    · exact ⟨mid.inside x List.mem_cons_self, mid.fresh x List.mem_cons_self⟩
    · have h := later.range x hx
      exact ⟨h.1, fun hd => h.2 (Finset.mem_insert_of_mem hd)⟩
  · intro x hx
    rcases List.mem_cons.mp hx with rfl | hx
    · exact List.mem_cons_self
    · exact List.mem_cons_of_mem v (later.covers x (keeps x hx))
  · intro x hx e edge
    have settle : e ∈ insert v done ∨ e ∈ visited := by
      rcases List.mem_cons.mp hx with rfl | hx
      · have known := mid'.explored x (Finset.mem_insert_self x done) e edge
        exact known.imp id (later.covers e)
      · exact later.closed x hx e edge
    rcases settle with h | h
    · rcases Finset.mem_insert.mp h with rfl | h
      · exact Or.inr List.mem_cons_self
      · exact Or.inl h
    · exact Or.inr (List.mem_cons_of_mem v h)

/-- On a closed set the traversal is never stuck. -/
theorem walk_closed (closed : Closed adj K) (n : Nat) (done : Finset V) (work : List V)
    (mid : Midway adj K done work) (fuel : (K \ done).card ≤ n) :
    let r := walk adj join n work (done ∪ work.toFinset)
    r.stuck = none ∧ Explored adj K done work r.visited := by
  induction n generalizing done work with
  | zero =>
    cases work with
    | nil => exact ⟨rfl, .nil, by simp [walk], by simp, by simp [walk]⟩
    | cons v work =>
      have member : v ∈ K \ done :=
        Finset.mem_sdiff.mpr ⟨mid.inside v List.mem_cons_self, mid.fresh v List.mem_cons_self⟩
      have empty := Finset.card_eq_zero.mp (Nat.le_zero.mp fuel)
      simp [empty] at member
  | succ n ih =>
    cases work with
    | nil => exact ⟨rfl, .nil, by simp [walk], by simp, by simp [walk]⟩
    | cons v work =>
      have vK := mid.inside v List.mem_cons_self
      obtain ⟨es, hes⟩ := closed.total v vK
      have shrink : (K \ insert v done).card ≤ n := by
        have less := card_sdiff_insert_lt vK (mid.fresh v List.mem_cons_self)
        omega
      have next := mid.next perm closed es hes
      have step := ih (insert v done) _ next shrink
      rw [← marks_next done v work es (perm _ _)] at step
      simp only [walk, hes]
      refine ⟨step.1, .cons mid next (fun x hx => ?_) step.2⟩
      rw [(perm _ _).mem_iff]
      exact List.mem_append_right _ hx

/-- From one vertex of a closed set: exactly the reachable vertices, each once. -/
theorem walk_from (closed : Closed adj K) (v : V) (hv : v ∈ K) (n : Nat) (fuel : K.card ≤ n) :
    let r := walk adj join n [v] {v}
    r.stuck = none ∧ r.visited.Nodup ∧
      ∀ x, x ∈ r.visited ↔ Relation.ReflTransGen (Edge adj) v x := by
  have start : Midway adj K ∅ [v] := by
    constructor <;> simp [hv]
  have h := walk_closed perm closed n ∅ [v] start (by simpa using fuel)
  have marks : (∅ : Finset V) ∪ [v].toFinset = {v} := by simp
  rw [marks] at h
  obtain ⟨stuck, nodup, _, covers, explored⟩ := h
  refine ⟨stuck, nodup, fun x => ⟨?_, ?_⟩⟩
  · intro hx
    obtain ⟨⟨w, hw, path⟩, _⟩ := walk_sound perm n [v] {v} x hx
    rw [List.mem_singleton] at hw
    exact hw ▸ path
  · intro path
    induction path with
    | refl => exact covers v List.mem_cons_self
    | tail _ edge ih => exact (explored _ ih _ edge).resolve_left (Finset.notMem_empty _)

omit perm [DecidableEq V] in
/-- What no edge leaves, no path leaves. -/
theorem reaches_inside {S : Finset V} (closed : ∀ u ∈ S, ∀ w, Edge adj u w → w ∈ S) {v x : V}
    (start : v ∈ S) (path : Relation.ReflTransGen (Edge adj) v x) : x ∈ S := by
  induction path with
  | refl => exact start
  | tail _ edge ih => exact closed _ ih _ edge

omit perm [DecidableEq V] in
theorem single_edge (single : ∀ v es, adj v = some es → es.length ≤ 1) {v e : V}
    (edge : Edge adj v e) : adj v = some [e] := by
  obtain ⟨es, here, listed⟩ := edge
  obtain ⟨a, alone⟩ := List.length_eq_one_iff.mp
    (Nat.le_antisymm (single v es here) (List.length_pos_of_mem listed))
  rw [alone, List.mem_singleton] at listed
  rw [here, alone, listed]

/-- Where every vertex has at most one neighbour, the traversal goes along a line until it
gets stuck or comes back to a vertex of the line. -/
theorem walk_line (entries : ∀ v es, adj v = some es → v ∈ K)
    (single : ∀ v es, adj v = some es → es.length ≤ 1) (n : Nat) (done : Finset V) (v : V)
    (fresh : v ∉ done) (explored : ∀ u ∈ done, ∀ e, Edge adj u e → e ∈ insert v done)
    (fuel : (K \ done).card < n) {x : V} (path : Relation.ReflTransGen (Edge adj) v x)
    (entry : ∃ es, adj x = some es) :
    x ∈ done ∨ x ∈ (walk adj join n [v] (insert v done)).visited := by
  induction n generalizing done v with
  | zero => omega
  | succ n ih =>
    rcases path.cases_head with rfl | ⟨e, edge, rest⟩
    · obtain ⟨es, here⟩ := entry
      exact .inr (by simp [walk, here])
    · have here := single_edge single edge
      have step : ∀ u ∈ insert v done, ∀ w, Edge adj u w → w ∈ insert e (insert v done) := by
        intro u member w next
        rcases Finset.mem_insert.mp member with rfl | before
        · obtain ⟨es, same, listed⟩ := next
          cases Option.some.inj (here.symm.trans same)
          rw [List.mem_singleton.mp listed]
          exact Finset.mem_insert_self _ _
        · exact Finset.mem_insert_of_mem (explored u before w next)
      by_cases back : e ∈ insert v done
      · -- the line has come back, and what is reachable is on it
        rw [Finset.insert_eq_of_mem back] at step
        have inside := reaches_inside step back rest
        rcases Finset.mem_insert.mp inside with rfl | before
        · exact .inr (by simp [walk, here])
        · exact .inl before
      · have less := card_sdiff_insert_lt (entries v _ here) fresh
        have later := ih (insert v done) e back step (by omega) rest
        have listed : join [e] [] = [e] := List.perm_singleton.mp (perm [e] [])
        have marks : insert v (insert v done) ∪ [e].toFinset = insert e (insert v done) := by
          ext y
          simp [or_left_comm]
        simp only [walk, here, unmarked, Finset.insert_idem, back, if_false, listed]
        rw [Finset.insert_idem] at marks
        rw [marks]
        rcases later with before | visited
        · rcases Finset.mem_insert.mp before with rfl | before
          · exact .inr List.mem_cons_self
          · exact .inl before
        · exact .inr (List.mem_cons_of_mem _ visited)
end Walk

/-- The first vertex is marked when it is taken off, so it need not be before. -/
theorem walk_unmarked_start (adj : V → Option (List V)) (join : List V → List V → List V)
    (n : Nat) (v : V) : walk adj join n [v] ∅ = walk adj join n [v] {v} := by
  cases n with
  | zero => rfl
  | succ n => simp [walk]

theorem walk_absent (adj : V → Option (List V)) (join : List V → List V → List V) (n : Nat)
    (v : V) (seen : Finset V) (h : adj v = none) : (walk adj join n [v] seen).visited = [] := by
  cases n with
  | zero => rfl
  | succ n => simp [walk, h]

end Subzero
