import Mathlib.Logic.Hydra
import Mathlib.Order.WellFoundedSet
import Subzero.Lib.HashMap
import Subzero.Lib.Traverse

/-! Kahn's algorithm on two families of adjacency lists. A vertex is queued when it waits
for nobody. When it is taken off the queue it is dropped from the lists of its successors,
and a successor whose list is empty then is queued, once for every time it is listed. -/
namespace Subzero.Kahn
variable {V : Type} [DecidableEq V]
variable {done out queue vs : List V} {waits : HashMap V (List V)}

/-- Drop `vx` from the lists of its successors. The successors whose lists are empty then
are returned; a successor without a list is a failure. -/
def release (vx : V) : List V → HashMap V (List V) → Option (List V × HashMap V (List V))
  | [], waits => some ([], waits)
  | v :: vs, waits =>
    match waits.lookup v with
    | none => none
    | some list =>
      let list := list.filter (· ≠ vx)
      (release vx vs (waits.insert v list)).map fun (ready, waits) =>
        (if list = [] then v :: ready else ready, waits)

/-- The vertices in the order in which they are taken off the queue. It fails on a vertex
without an entry, and if the rounds are more than the fuel. -/
def sort (next : HashMap V (List V)) : Nat → List V → HashMap V (List V) → Option (List V)
  | _, [], _ => some []
  | 0, _ :: _, _ => none
  | n + 1, vx :: queue, waits =>
    match next.lookup vx with
    | none => none
    | some vs =>
      match release vx vs waits with
      | none => none
      | some (ready, waits) => (sort next n (queue ++ ready) waits).map (vx :: ·)

/-- Every vertex of the list comes after all that it needs. -/
def Ordered (needs : V → V → Prop) : List V → List V → Prop
  | _, [] => True
  | done, v :: vs => (∀ p, needs v p → p ∈ done) ∧ Ordered needs (v :: done) vs

omit [DecidableEq V] in
/-- A part that holds whatever it needs is ordered too. -/
theorem Ordered.filter {needs : V → V → Prop} {P : V → Bool}
    (closed : ∀ v p, P v = true → needs v p → P p = true) (ordered : Ordered needs done vs) :
    Ordered needs (done.filter P) (vs.filter P) := by
  induction vs generalizing done with
  | nil => trivial
  | cons v vs ih =>
    have rest := ih ordered.2
    by_cases part : P v = true
    · rw [List.filter_cons_of_pos part]
      rw [List.filter_cons_of_pos part] at rest
      exact ⟨fun p need => List.mem_filter.mpr ⟨ordered.1 p need, closed v p part need⟩, rest⟩
    · rw [List.filter_cons_of_neg part]
      rwa [List.filter_cons_of_neg part] at rest

section Release
variable {vx : V} {vs ready : List V} {waits waits' : HashMap V (List V)}

theorem release_spec (done : release vx vs waits = some (ready, waits')) :
    (∀ v, waits'.lookup v =
      if v ∈ vs then (waits.lookup v).map (·.filter (· ≠ vx)) else waits.lookup v) ∧
      ∀ v, v ∈ ready ↔ v ∈ vs ∧ waits'.lookup v = some [] := by
  induction vs generalizing waits ready with
  | nil => cases done; simp
  | cons a vs ih =>
    unfold release at done
    split at done
    · contradiction
    · rename_i list found
      obtain ⟨⟨ready₁, waits₁⟩, rest, eq⟩ := Option.map_eq_some_iff.mp done
      cases eq
      obtain ⟨lists, queued⟩ := ih rest
      have here : waits'.lookup a = some (list.filter (· ≠ vx)) := by
        rw [lists, Finmap.lookup_insert]
        split <;> simp
      constructor
      · intro v
        by_cases same : v = a
        · subst same
          simp [here, found]
        · rw [lists, HashMap.lookup_insert_ite, if_neg same]
          simp [same]
      · intro v
        by_cases same : v = a
        · subst same
          rw [here, Option.some.injEq]
          split
          · rename_i empty
            exact iff_of_true List.mem_cons_self ⟨List.mem_cons_self, empty⟩
          · rename_i waiting
            rw [queued, here, Option.some.injEq]
            exact iff_of_false (fun h => waiting h.2) (fun h => waiting h.2)
        · split <;> simp [queued, same]

/-- What is queued is listed, no more often than it is listed. -/
theorem release_sublist (done : release vx vs waits = some (ready, waits')) :
    ready.Sublist vs := by
  induction vs generalizing waits ready with
  | nil =>
    cases done
    exact .slnil
  | cons a vs ih =>
    unfold release at done
    split at done
    · contradiction
    · obtain ⟨⟨ready₁, waits₁⟩, rest, eq⟩ := Option.map_eq_some_iff.mp done
      cases eq
      split
      · exact (ih rest).cons_cons a
      · exact (ih rest).cons a

theorem release_succeeds (listed : ∀ v ∈ vs, v ∈ waits) :
    ∃ r, release vx vs waits = some r := by
  induction vs generalizing waits with
  | nil => exact ⟨_, rfl⟩
  | cons a vs ih =>
    obtain ⟨list, found⟩ := Finmap.mem_iff.mp (listed a List.mem_cons_self)
    have rest := @ih (waits.insert a (list.filter (· ≠ vx))) fun v member =>
      Finmap.mem_insert.mpr (.inr (listed v (List.mem_cons_of_mem a member)))
    obtain ⟨⟨ready, waits₁⟩, rest⟩ := rest
    simp only [release, found, rest, Option.map_some]
    exact ⟨_, rfl⟩

end Release

section Rounds
variable {next waits₀ : HashMap V (List V)}

/-- What holds between two rounds. Nobody waits for what is not needed, what is dropped
from a list is done, and what is queued waits for nobody. -/
structure Midway (waits₀ : HashMap V (List V)) (done queue : List V)
    (waits : HashMap V (List V)) : Prop where
  lists : ∀ v l₀, waits₀.lookup v = some l₀ → ∃ l, waits.lookup v = some l ∧
    (∀ p ∈ l, p ∈ l₀) ∧ ∀ p ∈ l₀, p ∈ l ∨ p ∈ done
  ready : ∀ v ∈ queue, ∀ p, Edge waits₀.lookup v p → p ∈ done

theorem Midway.start (idle : ∀ v ∈ queue, waits₀.lookup v = some []) :
    Midway waits₀ [] queue waits₀ where
  lists v l₀ found := ⟨l₀, found, fun _ => id, fun _ => .inl⟩
  ready v member p edge := by
    obtain ⟨l, found, listed⟩ := edge
    obtain rfl : [] = l := Option.mem_unique (idle v member) found
    exact listed

theorem Midway.round {done queue vs ready : List V} {vx : V} {waits waits' : HashMap V (List V)}
    (midway : Midway waits₀ done (vx :: queue) waits)
    (released : release vx vs waits = some (ready, waits')) :
    Midway waits₀ (vx :: done) (queue ++ ready) waits' := by
  obtain ⟨lists, queued⟩ := release_spec released
  have listed : ∀ v l₀, waits₀.lookup v = some l₀ → ∃ l, waits'.lookup v = some l ∧
      (∀ p ∈ l, p ∈ l₀) ∧ ∀ p ∈ l₀, p ∈ l ∨ p ∈ vx :: done := by
    intro v l₀ found
    obtain ⟨l, current, sub, dropped⟩ := midway.lists v l₀ found
    rw [lists, current]
    by_cases successor : v ∈ vs
    · refine ⟨l.filter (· ≠ vx), if_pos successor, fun p member => ?_, fun p needed => ?_⟩
      · exact sub p (List.mem_of_mem_filter member)
      · by_cases this : p = vx
        · exact .inr (this ▸ List.mem_cons_self)
        · refine (dropped p needed).imp (fun waiting => ?_) (List.mem_cons_of_mem vx)
          exact List.mem_filter.mpr ⟨waiting, by simpa using this⟩
    · exact ⟨l, if_neg successor, sub, fun p needed =>
        (dropped p needed).imp id (List.mem_cons_of_mem vx)⟩
  refine ⟨listed, fun v member p edge => ?_⟩
  rcases List.mem_append.mp member with old | new
  · exact List.mem_cons_of_mem vx (midway.ready v (List.mem_cons_of_mem vx old) p edge)
  · obtain ⟨l₀, found, needed⟩ := edge
    obtain ⟨l, current, _, dropped⟩ := listed v l₀ found
    rw [((queued v).mp new).2] at current
    cases current
    exact (dropped p needed).resolve_left List.not_mem_nil

/-- The rounds of a sort that returns. -/
inductive Sorts (next : HashMap V (List V)) : List V → HashMap V (List V) → List V → Prop
  | done {waits : HashMap V (List V)} : Sorts next [] waits []
  | round {vx : V} {queue vs ready out : List V} {waits waits' : HashMap V (List V)}
    (successors : next.lookup vx = some vs) (released : release vx vs waits = some (ready, waits'))
    (rest : Sorts next (queue ++ ready) waits' out) : Sorts next (vx :: queue) waits (vx :: out)

theorem sort_sorts {n : Nat} (sorted : sort next n queue waits = some out) :
    Sorts next queue waits out := by
  induction n generalizing queue waits out with
  | zero =>
    cases queue with
    | nil => cases sorted; exact .done
    | cons vx queue => cases sorted
  | succ n ih =>
    cases queue with
    | nil => cases sorted; exact .done
    | cons vx queue =>
      simp only [sort] at sorted
      split at sorted
      · contradiction
      · rename_i vs successors
        split at sorted
        · contradiction
        · rename_i ready waits' released
          obtain ⟨tail, rest, rfl⟩ := Option.map_eq_some_iff.mp sorted
          exact .round successors released (ih rest)

/-- Whatever the lists are, a vertex is taken after all that it waits for. -/
theorem Sorts.ordered (midway : Midway waits₀ done queue waits)
    (sorts : Sorts next queue waits out) : Ordered (Edge waits₀.lookup) done out := by
  induction sorts generalizing done with
  | done => trivial
  | round _ released _ ih =>
    exact ⟨midway.ready _ List.mem_cons_self, ih (midway.round released)⟩

/-- If every list is mirrored, the lists hold what is not done, and a vertex that waits for
nobody is done or queued. -/
structure Complete (waits₀ : HashMap V (List V)) (done queue : List V)
    (waits : HashMap V (List V)) : Prop where
  undone : ∀ v l, waits.lookup v = some l → ∀ p ∈ l, p ∉ done ∧ Edge waits₀.lookup v p
  idle : ∀ v, waits.lookup v = some [] → v ∈ done ∨ v ∈ queue

theorem Complete.start (all : ∀ v, waits₀.lookup v = some [] → v ∈ queue) :
    Complete waits₀ [] queue waits₀ where
  undone _ l found _ member := ⟨List.not_mem_nil, l, found, member⟩
  idle v idle := .inr (all v idle)

theorem Complete.round {done queue vs ready : List V} {vx : V}
    {waits waits' : HashMap V (List V)} (mirrored : ∀ v, Edge waits₀.lookup v vx → v ∈ vs)
    (complete : Complete waits₀ done (vx :: queue) waits)
    (released : release vx vs waits = some (ready, waits')) :
    Complete waits₀ (vx :: done) (queue ++ ready) waits' := by
  obtain ⟨lists, queued⟩ := release_spec released
  constructor
  · intro v l found p member
    rw [lists] at found
    split at found
    · obtain ⟨l₁, current, rfl⟩ := Option.map_eq_some_iff.mp found
      obtain ⟨member, other⟩ := List.mem_filter.mp member
      obtain ⟨undone, edge⟩ := complete.undone v l₁ current p member
      exact ⟨List.not_mem_cons_of_ne_of_not_mem (by simpa using other) undone, edge⟩
    · rename_i outside
      obtain ⟨undone, edge⟩ := complete.undone v l found p member
      refine ⟨List.not_mem_cons_of_ne_of_not_mem ?_ undone, edge⟩
      rintro rfl
      exact outside (mirrored v edge)
  · intro v idle
    by_cases successor : v ∈ vs
    · exact .inr (List.mem_append_right queue ((queued v).mpr ⟨successor, idle⟩))
    · rw [lists, if_neg successor] at idle
      rcases complete.idle v idle with old | waiting
      · exact .inl (List.mem_cons_of_mem vx old)
      · rcases List.mem_cons.mp waiting with rfl | later
        · exact .inl List.mem_cons_self
        · exact .inr (List.mem_append_left ready later)

/-- A vertex is taken if all that it waits for is taken. -/
theorem Sorts.closed
    (mirrored : ∀ v p vs, next.lookup p = some vs → Edge waits₀.lookup v p → v ∈ vs)
    (midway : Midway waits₀ done queue waits) (complete : Complete waits₀ done queue waits)
    (sorts : Sorts next queue waits out) {v : V} (listed : v ∈ waits₀)
    (taken : ∀ p, Edge waits₀.lookup v p → p ∈ out ∨ p ∈ done) : v ∈ out ∨ v ∈ done := by
  induction sorts generalizing done with
  | done =>
    -- nothing is queued, and the list of the vertex holds nothing that is done
    obtain ⟨l₀, found⟩ := Finmap.mem_iff.mp listed
    obtain ⟨l, current, _⟩ := midway.lists v l₀ found
    have empty : l = [] := List.eq_nil_iff_forall_not_mem.mpr fun p member => by
      obtain ⟨undone, edge⟩ := complete.undone v l current p member
      exact undone ((taken p edge).resolve_left List.not_mem_nil)
    exact .inr ((complete.idle v (empty ▸ current)).resolve_right List.not_mem_nil)
  | round successors released _ ih =>
    have later := ih (midway.round released)
      (complete.round (fun v edge => mirrored v _ _ successors edge) released)
      fun p edge => by simpa [or_left_comm, or_assoc] using taken p edge
    simpa [or_left_comm, or_assoc] using later

/-- If no successor is listed twice, nothing is queued twice. What is done had all that it
waits for done before it. -/
structure Once (waits₀ : HashMap V (List V)) (done queue : List V) : Prop where
  nodup : (queue ++ done).Nodup
  past : ∀ v ∈ done, ∀ p, Edge waits₀.lookup v p → p ∈ done

theorem Once.round {done queue vs ready : List V} {vx : V} {waits waits' : HashMap V (List V)}
    (successors : vs.Nodup) (mirrored : ∀ v ∈ vs, Edge waits₀.lookup v vx)
    (midway : Midway waits₀ done (vx :: queue) waits) (once : Once waits₀ done (vx :: queue))
    (released : release vx vs waits = some (ready, waits')) :
    Once waits₀ (vx :: done) (queue ++ ready) := by
  have moved : (queue ++ vx :: done).Perm (vx :: queue ++ done) := List.perm_middle
  have undone : vx ∉ done := (List.nodup_cons.mp once.nodup).1 ∘ List.mem_append_right queue
  have sublist := release_sublist released
  -- what is queued now waited for `vx`, so it was not queued before
  have fresh : ∀ v ∈ ready, v ∉ vx :: queue ++ done := by
    intro v new old
    have edge := mirrored v (sublist.subset new)
    rcases List.mem_append.mp old with waiting | past
    · exact undone (midway.ready v waiting vx edge)
    · exact undone (once.past v past vx edge)
  constructor
  · have apart : (queue ++ ready ++ vx :: done).Perm (ready ++ (vx :: queue ++ done)) := by
      rw [List.append_assoc]
      exact List.perm_append_comm_assoc queue ready _ |>.trans (moved.append_left ready)
    rw [apart.nodup_iff, List.nodup_append]
    refine ⟨sublist.nodup successors, once.nodup, fun v new u old same => ?_⟩
    exact fresh v new (same ▸ old)
  · intro v member p edge
    rcases List.mem_cons.mp member with rfl | past
    · exact List.mem_cons_of_mem v (midway.ready v List.mem_cons_self p edge)
    · exact List.mem_cons_of_mem vx (once.past v past p edge)

theorem Sorts.nodup
    (successors : ∀ v vs, next.lookup v = some vs → vs.Nodup ∧ ∀ c ∈ vs, Edge waits₀.lookup c v)
    (midway : Midway waits₀ done queue waits) (once : Once waits₀ done queue)
    (sorts : Sorts next queue waits out) : (out ++ done).Nodup := by
  induction sorts generalizing done with
  | done => exact once.nodup
  | round found released _ ih =>
    obtain ⟨nodup, mirrored⟩ := successors _ _ found
    have later := ih (midway.round released) (once.round nodup mirrored midway released)
    exact List.perm_middle.nodup_iff.mp later

theorem Sorts.entry (sorts : Sorts next queue waits out) : ∀ v ∈ out, v ∈ next := by
  induction sorts with
  | done => simp
  | round found _ _ ih => exact List.forall_mem_cons.mpr ⟨Finmap.mem_of_lookup_eq_some found, ih⟩

/-- As much fuel as there are vertices in the result is enough. -/
theorem Sorts.fuel {m : Nat} (sorts : Sorts next queue waits out) (enough : out.length ≤ m) :
    sort next m queue waits = some out := by
  induction sorts generalizing m with
  | done => cases m <;> rfl
  | round found released _ ih =>
    cases m with
    | zero => simp at enough
    | succ m =>
      have later := ih (Nat.le_of_succ_le_succ enough)
      simp only [sort, found, released, later, Option.map_some]

/-- Without a cycle of successors the queue runs empty: a vertex that is taken off is
replaced by finitely many of its successors. -/
theorem sort_total (founded : WellFounded fun c v => Edge next.lookup v c)
    (inside : ∀ v c, Edge next.lookup v c → c ∈ next) (queued : ∀ v ∈ queue, v ∈ next)
    (listed : ∀ v ∈ next, v ∈ waits) : ∃ n out, sort next n queue waits = some out := by
  induction same : (queue : Multiset V) using founded.cutExpand.induction
    generalizing queue waits with
  | h m ih =>
    subst same
    cases queue with
    | nil => exact ⟨0, [], rfl⟩
    | cons vx queue =>
      obtain ⟨vs, successors⟩ := Finmap.mem_iff.mp (queued vx List.mem_cons_self)
      obtain ⟨⟨ready, waits'⟩, released⟩ := @release_succeeds _ _ vx vs waits fun v member =>
        listed v (inside vx v ⟨vs, successors, member⟩)
      obtain ⟨lists, ready_iff⟩ := release_spec released
      have below : ∀ v ∈ ready, Edge next.lookup vx v := fun v member =>
        ⟨vs, successors, ((ready_iff v).mp member).1⟩
      have shrinks : Relation.CutExpand (fun c v => Edge next.lookup v c)
          ((queue ++ ready : List V) : Multiset V) (vx :: queue : List V) := by
        refine ⟨(ready : Multiset V), vx, fun v member => below v (by simpa using member), ?_⟩
        rw [← Multiset.coe_add, ← Multiset.cons_coe, ← Multiset.singleton_add]
        ac_rfl
      obtain ⟨n, out, sorted⟩ := @ih _ shrinks (queue ++ ready) waits' (fun v member => by
        rcases List.mem_append.mp member with old | new
        · exact queued v (List.mem_cons_of_mem vx old)
        · exact inside vx v (below v new)) (fun v member => by
        obtain ⟨l, found⟩ := Finmap.mem_iff.mp (listed v member)
        rw [← Finmap.lookup_isSome, lists, found]
        split <;> rfl) rfl
      exact ⟨n + 1, vx :: out, by simp only [sort, successors, released, sorted, Option.map_some]⟩

end Rounds

omit [DecidableEq V] in
/-- A relation below finitely many elements without cycles is well-founded. -/
theorem wellFounded_of_acyclic {r : V → V → Prop} {K : Set V} (finite : K.Finite)
    (inside : ∀ a b, r a b → a ∈ K) (acyclic : ∀ v, ¬ Relation.TransGen r v v) :
    WellFounded r := by
  have order : IsStrictOrder V (Relation.TransGen r) :=
    { irrefl := acyclic, trans := fun _ _ _ => Relation.TransGen.trans }
  have on_set := Set.wellFoundedOn_iff.mp (finite.wellFoundedOn (r := Relation.TransGen r))
  have accessible : ∀ a ∈ K, Acc r a := by
    intro a
    induction a using on_set.induction with
    | h a ih =>
      intro here
      refine .intro a fun b edge => ?_
      exact ih b ⟨.single edge, inside b a edge, here⟩ (inside b a edge)
  exact ⟨fun a => .intro a fun b edge => accessible b (inside b a edge)⟩

end Subzero.Kahn
