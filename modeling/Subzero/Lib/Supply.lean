import Mathlib.Data.List.Basic
import Mathlib.Data.List.Dedup
import Subzero.Lib.HashMap

/-! A queue that is served from its end and filled anew whenever it is empty. The fillings
are listings of a map, in an order of their own each time. -/
namespace Subzero

section Serve
variable {α : Type}

/-- Serve up to `n` items; `fresh n` is the filling with `n` items to go. Returns the items
and what is left of the queue. -/
def serve (fresh : Nat → List α) : Nat → List α → List α × List α
  | 0, queue => ([], queue)
  | n + 1, queue =>
    let queue := if queue.isEmpty then fresh (n + 1) else queue
    match queue.getLast? with
    | none => ([], queue)
    | some a =>
      let (rest, left) := serve fresh n queue.dropLast
      (a :: rest, left)

variable (fresh : Nat → List α) (n : Nat) (queue : List α)

theorem serve_append (a : α) : serve fresh (n + 1) (queue ++ [a]) =
    (a :: (serve fresh n queue).1, (serve fresh n queue).2) := by
  simp [serve]

/-- An empty queue serves as its filling does. -/
theorem serve_nil : serve fresh (n + 1) [] = serve fresh (n + 1) (fresh (n + 1)) := by
  rcases (fresh (n + 1)).eq_nil_or_concat with empty | ⟨front, a, filled⟩
  · rw [empty]
  · rw [filled, List.concat_eq_append, serve_append]
    simp [serve, filled]

/-- Induction along the items: one is taken from the end, an empty queue is filled, or there
is nothing to fill it with. -/
theorem serve_induction {P : Nat → List α → Prop} (done : ∀ queue, P 0 queue)
    (last : ∀ n queue a, P n queue → P (n + 1) (queue ++ [a]))
    (refill : ∀ n, fresh (n + 1) ≠ [] → P (n + 1) (fresh (n + 1)) → P (n + 1) [])
    (stop : ∀ n, fresh (n + 1) = [] → P (n + 1) []) (n : Nat) (queue : List α) : P n queue := by
  induction n generalizing queue with
  | zero => exact done queue
  | succ n ih =>
    have filled : ∀ queue, queue ≠ [] → P (n + 1) queue := by
      intro queue some
      obtain ⟨front, a, rfl⟩ := queue.eq_nil_or_concat.resolve_left some
      rw [List.concat_eq_append]
      exact last n front a (ih front)
    by_cases some : queue = []
    · subst some
      by_cases empty : fresh (n + 1) = []
      · exact stop n empty
      · exact refill n empty (filled _ empty)
    · exact filled queue some

/-- First what is in the queue, the last item first, and then what an empty one serves. -/
theorem serve_eq : (serve fresh n queue).1 =
    queue.reverse.take n ++ (serve fresh (n - queue.length) []).1 := by
  induction queue using List.reverseRecOn generalizing n with
  | nil => simp
  | append_singleton queue a ih =>
    cases n with
    | zero => simp [serve]
    | succ n => simp [serve_append, ih n]

variable {fresh n queue}

theorem serve_stop (empty : fresh (n + 1) = []) : serve fresh (n + 1) [] = ([], []) := by
  simp [serve, empty]

theorem serve_of_le (enough : n ≤ queue.length) :
    (serve fresh n queue).1 = queue.reverse.take n := by
  rw [serve_eq, Nat.sub_eq_zero_of_le enough, serve, List.append_nil]

/-- What an empty queue serves begins with its filling. -/
theorem serve_filling : (serve fresh (n + 1) []).1 =
    (fresh (n + 1)).reverse.take (n + 1) ++
      (serve fresh (n + 1 - (fresh (n + 1)).length) []).1 := by
  rw [serve_nil, serve_eq]

/-- An empty queue with a filling that is long enough is filled once. -/
theorem serve_whole (enough : n ≤ (fresh n).length) :
    (serve fresh n []).1 = (fresh n).reverse.take n := by
  cases n with
  | zero => rfl
  | succ n => rw [serve_nil, serve_of_le enough]

/-- What is served is from the queue or from a filling. -/
theorem mem_serve {a : α} (served : a ∈ (serve fresh n queue).1) :
    a ∈ queue ∨ ∃ m, a ∈ fresh m := by
  induction n, queue using serve_induction fresh with
  | done queue => cases served
  | last n queue b ih =>
    rw [serve_append, List.mem_cons] at served
    rcases served with rfl | later
    · exact .inl (by simp)
    · exact (ih later).imp_left (List.mem_append_left [b])
  | refill n _ ih =>
    rw [serve_nil] at served
    exact .inr ((ih served).elim (fun first => ⟨n + 1, first⟩) id)
  | stop n empty =>
    rw [serve_stop empty] at served
    cases served

/-- What the fillings have and losing the last item keeps, holds of what is left. -/
theorem serve_keeps {P : List α → Prop} (filled : ∀ n, P (fresh n))
    (shorter : ∀ queue a, P (queue ++ [a]) → P queue) (held : P queue) :
    P (serve fresh n queue).2 := by
  induction n, queue using serve_induction fresh with
  | done queue => exact held
  | last n queue a ih =>
    rw [serve_append]
    exact ih (shorter queue a held)
  | refill n _ ih =>
    rw [serve_nil]
    exact ih (filled (n + 1))
  | stop n empty =>
    rw [serve_stop empty]
    exact held

/-- What the queue serves has no repetitions if the queue has none. -/
theorem nodup_take_reverse {β : Type} {f : α → β} (nodup : (queue.map f).Nodup) (n : Nat) :
    ((queue.reverse.take n).map f).Nodup := by
  have whole : (queue.reverse.map f).Nodup := by
    rwa [List.map_reverse, List.nodup_reverse]
  exact whole.sublist ((List.take_sublist n _).map f)

theorem length_take_reverse (enough : n ≤ queue.length) :
    (queue.reverse.take n).length = n := by
  rw [List.length_take, List.length_reverse, min_eq_left enough]

end Serve

section Listings
variable {K V : Type} [DecidableEq K]

omit [DecidableEq K] in
theorem Listing.exists : Nonempty (Listing K) :=
  ⟨⟨Finset.toList, Finset.nodup_toList, fun _ _ => Finset.mem_toList⟩⟩

/-- The same order, with one element put last. -/
def Listing.last (order : Listing K) (k : K) : Listing K where
  list s := (order.list s).filter (· ≠ k) ++ if k ∈ s then [k] else []
  nodup s := by
    refine List.nodup_append.mpr ⟨(order.nodup s).filter _, by split <;> simp, ?_⟩
    rintro a there b here rfl
    split at here
    · simp_all
    · simp at here
  mem s a := by
    by_cases same : a = k
    · subst same
      simp
    · split <;> simp [same, order.mem]

theorem Listing.last_list (order : Listing K) {k : K} {s : Finset K} (member : k ∈ s) :
    (order.last k).list s = (order.list s).filter (· ≠ k) ++ [k] := by
  simp only [Listing.last, if_pos member]

namespace HashMap

/-- The entries with a value that is kept. -/
def snapshot (order : Listing K) (keep : V → Bool) (m : HashMap K V) : List (K × V) :=
  (order.list m.keys).filterMap fun k => ((m.lookup k).filter keep).map fun v => (k, v)

/-- The keys of these entries. -/
def kept (keep : V → Bool) (m : HashMap K V) : Finset K :=
  m.keys.filter fun k => (m.lookup k).any keep

variable {order : Listing K} {keep : V → Bool} {m : HashMap K V} {k : K} {v : V}

theorem mem_kept : k ∈ m.kept keep ↔ ∃ v, m.lookup k = some v ∧ keep v = true := by
  rw [kept, Finset.mem_filter, Finmap.mem_keys, Option.any_eq_true]
  refine and_iff_right_of_imp ?_
  rintro ⟨v, found, _⟩
  exact Finmap.mem_of_lookup_eq_some found

theorem kept_all : m.kept (fun _ => true) = m.keys := by
  ext k
  rw [mem_kept, HashMap.mem_keys_iff]
  exact exists_congr fun v => and_iff_left rfl

theorem mem_snapshot : (k, v) ∈ snapshot order keep m ↔ m.lookup k = some v ∧ keep v = true := by
  simp only [snapshot, List.mem_filterMap, order.mem, Finmap.mem_keys, Option.map_eq_some_iff,
    Option.filter_eq_some_iff, Prod.mk.injEq]
  constructor
  · rintro ⟨_, _, _, found, rfl, rfl⟩
    exact found
  · rintro ⟨found, kept⟩
    exact ⟨k, Finmap.mem_of_lookup_eq_some found, v, ⟨found, kept⟩, rfl, rfl⟩

theorem keys_snapshot : (snapshot order keep m).map Prod.fst =
    (order.list m.keys).filter fun k => (m.lookup k).any keep := by
  rw [snapshot, List.map_filterMap]
  induction order.list m.keys with
  | nil => rfl
  | cons a keys ih =>
    rw [List.filterMap_cons, List.filter_cons, ih]
    cases m.lookup a with
    | none => rfl
    | some v => cases same : keep v <;> simp [Option.filter_some, same]

theorem nodup_snapshot : ((snapshot order keep m).map Prod.fst).Nodup := by
  rw [keys_snapshot]
  exact (order.nodup _).filter _

theorem toFinset_snapshot : ((snapshot order keep m).map Prod.fst).toFinset = m.kept keep := by
  ext k
  rw [keys_snapshot, List.mem_toFinset, List.mem_filter, order.mem, kept, Finset.mem_filter]

theorem length_snapshot : (snapshot order keep m).length = (m.kept keep).card := by
  rw [← toFinset_snapshot, List.toFinset_card_of_nodup nodup_snapshot, List.length_map]

/-- Any entry can come last. -/
theorem snapshot_last (order : Listing K) (found : m.lookup k = some v) (kept : keep v = true) :
    ∃ front, snapshot (order.last k) keep m = front ++ [(k, v)] := by
  have listed : k ∈ m.keys := HashMap.mem_keys_of_lookup found
  refine ⟨((order.list m.keys).filter (· ≠ k)).filterMap fun k =>
    ((m.lookup k).filter keep).map fun v => (k, v), ?_⟩
  rw [snapshot, Listing.last_list order listed, List.filterMap_append]
  simp [found, kept, Option.filter_some]

end HashMap
end Listings
end Subzero
