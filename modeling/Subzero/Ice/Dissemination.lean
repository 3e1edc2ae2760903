import Subzero.Ideal
import Subzero.Lib.Build
import Subzero.Lib.Outcome
import Subzero.Lib.PriorityQueue
import Subzero.Lib.Run

/-! The dissemination component: rumours are handed out to the pings of ice, those first that
were handed out least often, and a rumour is dropped once it was handed out often enough. -/
namespace Subzero.Ice

inductive Gossip where
  | joiner (id : Id)
  deriving DecidableEq

abbrev GossipId := UInt64

def GOSSIP_LIMIT : Nat := 3

structure PriorityMap where
  c : GossipId
  h : HashMap GossipId Gossip
  q : PriorityQueue GossipId Nat

namespace PriorityMap

def new : PriorityMap := ⟨0, ∅, ∅⟩

/-- `none` is the panic on an overflow of the counter. -/
def push (build : Build) (m : PriorityMap) (g : Gossip) : Option PriorityMap :=
  (build.add64 m.c 1).map fun c => ⟨c, m.h.insert m.c g, m.q.insert m.c 0⟩

def hasOverLimit (order : Listing GossipId) (limit : Nat) (m : PriorityMap) : Bool :=
  match m.q.peekMax order with
  | none => false
  | some e => limit ≤ e.2

/-- One turn of the loop for each unit of fuel; `none` without fuel or on the panic of a pop
from an empty queue. -/
def cleanupLoop (order : Listing GossipId) (limit : Nat) :
    Nat → Nat → PriorityMap → Option (Nat × PriorityMap)
  | 0, _, _ => none
  | fuel + 1, deleted, m =>
    if m.hasOverLimit order limit then
      match m.q.popMax order with
      | none => none
      | some (e, q) => cleanupLoop order limit fuel (deleted + 1) ⟨m.c, m.h.erase e.1, q⟩
    else some (deleted, m)

/-- Each turn takes an item from the queue, so its length is enough fuel. -/
def cleanup (order : Listing GossipId) (limit : Nat) (m : PriorityMap) :
    Option (Nat × PriorityMap) :=
  cleanupLoop order limit (m.q.keys.card + 1) 0 m

/-- `none` is the panic on a rumour that is missing in `h`. -/
def takeN (order : Listing GossipId) (n : Nat) (m : PriorityMap) :
    Option (List Gossip × PriorityMap) :=
  let taken := m.q.takeMin order n
  let q := taken.1.foldl (fun q e => q.pushIncrease e.1 (e.2 + 1)) taken.2
  (taken.1.mapM fun e => m.h.lookup e.1).map fun rumours => (rumours, { m with q := q })

/-- The handler of `GossipQuery`, with the logarithm of the size of the network, rounded up. -/
def onGossipQuery (rumoursLimit : Nat) (mins maxs : Listing GossipId) (m : PriorityMap) :
    Option (List Gossip × PriorityMap) :=
  (m.takeN mins GOSSIP_LIMIT).bind fun r =>
    (r.2.cleanup maxs rumoursLimit).map fun cleaned => (r.1, cleaned.2)

/-- The ids of the rumours that a query returns. -/
def taken (m : PriorityMap) (mins : Listing GossipId) : List GossipId :=
  (m.q.takeMin mins GOSSIP_LIMIT).1.map Prod.fst

/-- The items at the limit are gone from both maps. -/
structure Cleaned (limit : Nat) (m m' : PriorityMap) : Prop where
  counter : m'.c = m.c
  queue : ∀ id, m'.q.lookup id = (m.q.lookup id).filter (· < limit)
  rumours : ∀ id, m'.h.lookup id =
    if ∃ p, m.q.lookup id = some p ∧ limit ≤ p then none else m.h.lookup id

theorem Cleaned.refl {limit : Nat} {m : PriorityMap}
    (below : ∀ id p, m.q.lookup id = some p → p < limit) : Cleaned limit m m := by
  constructor
  · rfl
  · intro id
    cases found : m.q.lookup id with
    | none => rfl
    | some p => simp [Option.filter_some, below id p found]
  · intro id
    rw [if_neg]
    rintro ⟨p, found, reached⟩
    have := below id p found
    omega

theorem Cleaned.step {limit : Nat} {m m' : PriorityMap} {e : GossipId × Nat}
    (found : m.q.lookup e.1 = some e.2) (reached : limit ≤ e.2)
    (rest : Cleaned limit ⟨m.c, m.h.erase e.1, m.q.erase e.1⟩ m') : Cleaned limit m m' := by
  constructor
  · exact rest.counter
  · intro id
    rw [rest.queue, HashMap.lookup_erase_ite]
    by_cases same : id = e.1
    · subst same
      simp [found, Option.filter_some, reached]
    · rw [if_neg same]
  · intro id
    rw [rest.rumours, HashMap.lookup_erase_ite, HashMap.lookup_erase_ite]
    by_cases same : id = e.1
    · subst same
      simp [found, reached]
    · simp only [if_neg same]

theorem cleanupLoop_cleaned (order : Listing GossipId) (limit fuel deleted : Nat) (m : PriorityMap)
    (enough : m.q.keys.card < fuel) :
    ∃ n m', cleanupLoop order limit fuel deleted m = some (n, m') ∧ Cleaned limit m m' := by
  induction fuel generalizing deleted m with
  | zero => omega
  | succ fuel ih =>
    cases top : m.q.peekMax order with
    | none =>
      have empty := PriorityQueue.peek_none top
      refine ⟨deleted, m, by simp [cleanupLoop, hasOverLimit, top], .refl fun id p found => ?_⟩
      rw [empty id] at found
      contradiction
    | some e =>
      obtain ⟨found, greatest⟩ := PriorityQueue.peek_some top
      by_cases reached : limit ≤ e.2
      · have member : e.1 ∈ m.q.keys := HashMap.mem_keys_of_lookup found
        have smaller := Finset.card_erase_lt_of_mem member
        rw [← Finmap.keys_erase] at smaller
        obtain ⟨n, m', ends, rest⟩ :=
          ih (deleted + 1) ⟨m.c, m.h.erase e.1, m.q.erase e.1⟩ (by simp only; omega)
        refine ⟨n, m', ?_, .step found reached rest⟩
        simp only [cleanupLoop, hasOverLimit, top, reached, decide_true, if_true,
          PriorityQueue.popMax, Option.map_some, ends]
      · refine ⟨deleted, m, by simp [cleanupLoop, hasOverLimit, top, reached], .refl ?_⟩
        intro id p there
        have := greatest id p there
        omega

/-- The loop ends, with everything below the limit left. -/
theorem cleanup_cleaned (order : Listing GossipId) (limit : Nat) (m : PriorityMap) :
    ∃ n m', m.cleanup order limit = some (n, m') ∧ Cleaned limit m m' :=
  cleanupLoop_cleaned order limit _ 0 m (Nat.lt_succ_self _)

theorem mem_taken {m : PriorityMap} {mins : Listing GossipId} {id : GossipId}
    (listed : id ∈ m.taken mins) : ∃ p, m.q.lookup id = some p := by
  obtain ⟨e, member, rfl⟩ := List.mem_map.mp listed
  exact ⟨e.2, (PriorityQueue.takeMin_least mins GOSSIP_LIMIT m.q).found e member⟩

/-- What is taken is counted up, and no rumour of it is missing. -/
theorem takeN_counts {m : PriorityMap} (same : m.h.keys = m.q.keys) (mins : Listing GossipId) :
    ∃ r m', m.takeN mins GOSSIP_LIMIT = some (r, m') ∧
      (m.taken mins).map (fun id => m.h.lookup id) = r.map some ∧ m'.c = m.c ∧ m'.h = m.h ∧
      ∀ id, m'.q.lookup id =
        if id ∈ m.taken mins then (m.q.lookup id).map (· + 1) else m.q.lookup id := by
  have least := PriorityQueue.takeMin_least mins GOSSIP_LIMIT m.q
  have present : ∀ e ∈ (m.q.takeMin mins GOSSIP_LIMIT).1, ∃ g, m.h.lookup e.1 = some g := by
    intro e listed
    have member : e.1 ∈ m.h.keys := by
      rw [same, Finmap.mem_keys]
      exact Finmap.mem_of_lookup_eq_some (least.found e listed)
    exact HashMap.mem_keys_iff.mp member
  obtain ⟨r, mapped, rumours⟩ := mapM_some present
  have took : m.takeN mins GOSSIP_LIMIT = some (r, { m with
      q := (m.q.takeMin mins GOSSIP_LIMIT).1.foldl (fun q e => q.pushIncrease e.1 (e.2 + 1))
        (m.q.takeMin mins GOSSIP_LIMIT).2 }) := by
    simp only [takeN, mapped, Option.map_some]
  refine ⟨r, _, took, ?_, rfl, rfl, least.lookup_raised (· + 1)⟩
  rw [taken, List.map_map]
  exact rumours

/-- What a query does: it returns the rumours of the ids that it takes, counts up their
priorities and drops those that come to the limit. -/
structure Queried (limit : Nat) (ids : List GossipId) (m : PriorityMap) (r : List Gossip)
    (m' : PriorityMap) : Prop where
  rumours : ids.map (fun id => m.h.lookup id) = r.map some
  counter : m'.c = m.c
  queue : ∀ id, m'.q.lookup id =
    if id ∈ ids then ((m.q.lookup id).map (· + 1)).filter (· < limit) else m.q.lookup id
  kept : ∀ id, m'.h.lookup id = if (m'.q.lookup id).isSome then m.h.lookup id else none

theorem onGossipQuery_queried {limit : Nat} {m : PriorityMap} (same : m.h.keys = m.q.keys)
    (below : ∀ id p, m.q.lookup id = some p → p < limit) (mins maxs : Listing GossipId) :
    ∃ r m', m.onGossipQuery limit mins maxs = some (r, m') ∧
      Queried limit (m.taken mins) m r m' := by
  obtain ⟨r, counted, took, rumours, counter, unchanged, raised⟩ := takeN_counts same mins
  obtain ⟨n, m', cleaned, clean⟩ := counted.cleanup_cleaned maxs limit
  refine ⟨r, m', ?_, rumours, clean.counter.trans counter, fun id => ?_, fun id => ?_⟩
  · simp only [onGossipQuery, took, Option.bind_some, cleaned, Option.map_some]
  · rw [clean.queue, raised]
    split
    · rfl
    · cases found : m.q.lookup id with
      | none => rfl
      | some p => simp [Option.filter_some, below id p found]
  · rw [clean.rumours, clean.queue, unchanged]
    cases found : counted.q.lookup id with
    | none =>
      -- the rumour was in neither map before
      have absent : m.q.lookup id = none := by
        rw [raised] at found
        split at found
        · exact Option.map_eq_none_iff.mp found
        · exact found
      rw [Finmap.lookup_eq_none, ← Finmap.mem_keys, ← same, Finmap.mem_keys,
        ← Finmap.lookup_eq_none] at absent
      simp [absent]
    | some p =>
      by_cases reached : limit ≤ p
      · simp [Option.filter_some, reached]
      · simp [Option.filter_some, reached]

/-- A message to the component. A query comes with the orders in which its pops from either
end of the queue find the items. -/
inductive Event where
  | gossip (msg : Gossip)
  | query (mins maxs : Listing GossipId)

/-- The ids that a message takes. -/
def Event.taken (m : PriorityMap) : Event → List GossipId
  | .gossip _ => []
  | .query mins _ => m.taken mins

def step (build : Build) (limit : Nat) (m : PriorityMap) : Event → Option PriorityMap
  | .gossip msg => m.push build msg
  | .query mins maxs => (m.onGossipQuery limit mins maxs).map Prod.snd

/-- The rumours that were pushed, each under its id. -/
def pushes (steps : List (PriorityMap × Event)) : List (GossipId × Gossip) :=
  steps.filterMap fun x =>
    match x.2 with
    | .gossip msg => some (x.1.c, msg)
    | .query _ _ => none

/-- The number of queries that returned a rumour. -/
def returned (steps : List (PriorityMap × Event)) (id : GossipId) : Nat :=
  steps.countP fun x => id ∈ x.2.taken x.1

section History
variable (steps : List (PriorityMap × Event)) (m : PriorityMap) (id : GossipId)

@[simp] theorem pushes_gossip (msg : Gossip) :
    pushes (steps ++ [(m, .gossip msg)]) = pushes steps ++ [(m.c, msg)] := by
  simp [pushes]

@[simp] theorem pushes_query (mins maxs : Listing GossipId) :
    pushes (steps ++ [(m, .query mins maxs)]) = pushes steps := by
  simp [pushes]

@[simp] theorem returned_gossip (msg : Gossip) :
    returned (steps ++ [(m, .gossip msg)]) id = returned steps id := by
  simp [returned, Event.taken]

@[simp] theorem returned_query (mins maxs : Listing GossipId) :
    returned (steps ++ [(m, .query mins maxs)]) id =
      returned steps id + if id ∈ m.taken mins then 1 else 0 := by
  by_cases listed : id ∈ m.taken mins <;> simp [returned, Event.taken, List.countP_append, listed]

end History

/-- A rumour is in the maps from its push on until it was returned `limit` times, and its
priority is the number of times that it was returned. -/
structure Spread (limit : Nat) (steps : List (PriorityMap × Event)) (m : PriorityMap) : Prop where
  counter : (pushes steps).length < 2 ^ 64 → m.c.toNat = (pushes steps).length
  numbered : ∀ e ∈ pushes steps, e.1.toNat < (pushes steps).length
  unborn : ∀ id, id ∉ (pushes steps).map Prod.fst → returned steps id = 0
  bound : ∀ id, returned steps id ≤ limit
  priority : ∀ id p, m.q.lookup id = some p ↔
    id ∈ (pushes steps).map Prod.fst ∧ p = returned steps id ∧ p < limit
  rumour : ∀ id g, m.h.lookup id = some g ↔ (id, g) ∈ pushes steps ∧ returned steps id < limit

namespace Spread
variable {limit : Nat} {steps : List (PriorityMap × Event)} {m m' : PriorityMap}

theorem start : Spread limit [] .new := by
  constructor <;> simp [pushes, returned, PriorityMap.new]

theorem mem_keys (spread : Spread limit steps m) (id : GossipId) :
    id ∈ m.q.keys ↔ id ∈ (pushes steps).map Prod.fst ∧ returned steps id < limit := by
  rw [HashMap.mem_keys_iff]
  constructor
  · rintro ⟨p, found⟩
    obtain ⟨pushed, rfl, below⟩ := (spread.priority id p).mp found
    exact ⟨pushed, below⟩
  · rintro ⟨pushed, below⟩
    exact ⟨_, (spread.priority id _).mpr ⟨pushed, rfl, below⟩⟩

/-- The two maps have the same keys. -/
theorem keys (spread : Spread limit steps m) : m.h.keys = m.q.keys := by
  ext id
  rw [spread.mem_keys, HashMap.mem_keys_iff]
  constructor
  · rintro ⟨g, found⟩
    obtain ⟨pushed, below⟩ := (spread.rumour id g).mp found
    exact ⟨List.mem_map_of_mem pushed, below⟩
  · rintro ⟨pushed, below⟩
    obtain ⟨e, listed, rfl⟩ := List.mem_map.mp pushed
    exact ⟨e.2, (spread.rumour _ _).mpr ⟨listed, below⟩⟩

theorem below (spread : Spread limit steps m) (id : GossipId) (p : Nat)
    (found : m.q.lookup id = some p) : p < limit :=
  ((spread.priority id p).mp found).2.2

/-- A taken rumour has been pushed, and its priority counts its returns. -/
theorem of_taken (spread : Spread limit steps m) {mins : Listing GossipId} {id : GossipId}
    (listed : id ∈ m.taken mins) :
    id ∈ (pushes steps).map Prod.fst ∧ m.q.lookup id = some (returned steps id) ∧
      returned steps id < limit := by
  obtain ⟨p, found⟩ := mem_taken listed
  obtain ⟨pushed, rfl, below⟩ := (spread.priority id p).mp found
  exact ⟨pushed, found, below⟩

/-- The counter gives a new rumour an id of its own. -/
theorem fresh (spread : Spread limit steps m) (room : (pushes steps).length < 2 ^ 64) :
    m.c ∉ (pushes steps).map Prod.fst := by
  intro used
  obtain ⟨e, listed, same⟩ := List.mem_map.mp used
  have before := spread.numbered e listed
  rw [same, spread.counter room] at before
  omega

theorem gossip {build : Build} {msg : Gossip} (positive : 1 ≤ limit)
    (spread : Spread limit steps m) (room : (pushes steps).length < 2 ^ 64)
    (pushed : m.push build msg = some m') :
    Spread limit (steps ++ [(m, .gossip msg)]) m' := by
  obtain ⟨c, added, rfl⟩ := Option.map_eq_some_iff.mp pushed
  have new := spread.fresh room
  have none := spread.unborn m.c new
  have here := spread.counter room
  constructor
  · intro more
    rw [pushes_gossip, List.length_append, List.length_singleton] at more ⊢
    have one : (1 : UInt64).toNat = 1 := rfl
    rw [build.add64_fits (by omega)] at added
    obtain rfl := Option.some.inj added
    rw [UInt64.toNat_add, one, here]
    omega
  · intro e listed
    rw [pushes_gossip, List.length_append, List.length_singleton] at *
    rcases List.mem_append.mp listed with old | last
    · exact Nat.lt_succ_of_lt (spread.numbered e old)
    · obtain rfl := List.mem_singleton.mp last
      exact Nat.lt_succ_of_le here.le
  · intro id absent
    rw [returned_gossip]
    rw [pushes_gossip, List.map_append, List.mem_append, not_or] at absent
    exact spread.unborn id absent.1
  · intro id
    rw [returned_gossip]
    exact spread.bound id
  · intro id p
    rw [HashMap.lookup_insert_ite, pushes_gossip, returned_gossip, List.map_append,
      List.mem_append]
    by_cases same : id = m.c
    · subst same
      simp only [if_true, none, Option.some.injEq, List.map_cons, List.mem_cons, true_or, or_true,
        true_and]
      omega
    · simp [same, spread.priority]
  · intro id g
    rw [HashMap.lookup_insert_ite, pushes_gossip, returned_gossip, List.mem_append]
    by_cases same : id = m.c
    · subst same
      have unknown : (m.c, g) ∉ pushes steps := fun listed => new (List.mem_map_of_mem listed)
      simp only [if_true, none, unknown, Option.some.injEq, false_or, List.mem_singleton,
        Prod.mk.injEq, true_and, eq_comm]
      exact (and_iff_left positive).symm
    · simp [same, spread.rumour]

/-- A query counts up what it takes, and what comes to the limit is gone. -/
theorem lookup_queried {mins : Listing GossipId} {r : List Gossip} (spread : Spread limit steps m)
    (queried : Queried limit (m.taken mins) m r m') (id : GossipId) (p : Nat) :
    m'.q.lookup id = some p ↔ id ∈ (pushes steps).map Prod.fst ∧
      p = returned steps id + (if id ∈ m.taken mins then 1 else 0) ∧ p < limit := by
  rw [queried.queue]
  by_cases listed : id ∈ m.taken mins
  · obtain ⟨pushed, found, below⟩ := spread.of_taken listed
    simp only [if_pos listed, found, Option.map_some, Option.filter_eq_some_iff, pushed,
      true_and, Option.some.injEq, decide_eq_true_eq]
    rw [eq_comm]
  · simp only [if_neg listed, Nat.add_zero]
    exact spread.priority id p

theorem query {mins maxs : Listing GossipId} {r : List Gossip} (spread : Spread limit steps m)
    (queried : Queried limit (m.taken mins) m r m') :
    Spread limit (steps ++ [(m, .query mins maxs)]) m' := by
  have priority := spread.lookup_queried queried
  constructor
  · rw [pushes_query, queried.counter]
    exact spread.counter
  · rw [pushes_query]
    exact spread.numbered
  · intro id absent
    rw [pushes_query] at absent
    have other : id ∉ m.taken mins := fun listed => absent (spread.of_taken listed).1
    rw [returned_query, if_neg other, spread.unborn id absent]
  · intro id
    rw [returned_query]
    by_cases listed : id ∈ m.taken mins
    · rw [if_pos listed]
      exact (spread.of_taken listed).2.2
    · rw [if_neg listed]
      exact spread.bound id
  · intro id p
    rw [pushes_query, returned_query]
    exact priority id p
  · intro id g
    rw [pushes_query, returned_query, queried.kept]
    constructor
    · intro found
      split at found
      · rename_i left
        obtain ⟨p, there⟩ := Option.isSome_iff_exists.mp left
        obtain ⟨_, rfl, below⟩ := (priority id p).mp there
        exact ⟨((spread.rumour id g).mp found).1, below⟩
      · contradiction
    · rintro ⟨pushed, below⟩
      have left := (priority id _).mpr ⟨List.mem_map_of_mem pushed, rfl, below⟩
      rw [left, Option.isSome_some, if_pos rfl]
      exact (spread.rumour id g).mpr ⟨pushed, by omega⟩

/-- The ids of a query have the lowest counts. -/
theorem taken_lowest (spread : Spread limit steps m) {mins : Listing GossipId}
    {id other : GossipId} (listed : id ∈ m.taken mins) (kept : other ∈ m.q.keys)
    (passed : other ∉ m.taken mins) : returned steps id ≤ returned steps other := by
  have least := PriorityQueue.takeMin_least mins GOSSIP_LIMIT m.q
  obtain ⟨pushed, below⟩ := (spread.mem_keys other).mp kept
  have found := (spread.priority other _).mpr ⟨pushed, rfl, below⟩
  obtain ⟨e, member, rfl⟩ := List.mem_map.mp listed
  have counted : some e.2 = some (returned steps e.1) :=
    (least.found e member).symm.trans (spread.of_taken listed).2.1
  rw [← Option.some.inj counted]
  refine least.least e member other _ ?_
  rw [least.others]
  exact (if_neg passed).trans found

end Spread

/-- In a build that checks for overflows the counter never wraps. -/
theorem spread_of_run {build : Build} {limit : Nat} (positive : 1 ≤ limit)
    {steps : List (PriorityMap × Event)} {m : PriorityMap}
    (run : Run (step build limit) .new steps m)
    (counted : build = .checked ∨ (pushes steps).length ≤ 2 ^ 64) :
    Spread limit steps m ∧ (build = .checked → (pushes steps).length < 2 ^ 64) := by
  induction run with
  | start => exact ⟨.start, fun _ => Nat.two_pow_pos 64⟩
  | @next steps m m' e _ taken ih =>
    cases e with
    | gossip msg =>
      rw [pushes_gossip, List.length_append, List.length_singleton] at counted ⊢
      obtain ⟨spread, checked⟩ := ih (counted.imp_right Nat.le_of_succ_le)
      have room : (pushes steps).length < 2 ^ 64 := counted.elim checked id
      refine ⟨spread.gossip positive room taken, ?_⟩
      rintro rfl
      obtain ⟨c, added, _⟩ := Option.map_eq_some_iff.mp taken
      simp only [Build.add64, spread.counter room] at added
      split at added
      · rename_i fits
        exact fits
      · contradiction
    | query mins maxs =>
      rw [pushes_query] at counted ⊢
      obtain ⟨spread, checked⟩ := ih counted
      obtain ⟨r, after, answered, queried⟩ :=
        onGossipQuery_queried spread.keys spread.below mins maxs
      simp only [step, answered, Option.map_some, Option.some.injEq] at taken
      exact ⟨taken ▸ spread.query queried, checked⟩

/-- In every run, the two maps agree on their keys, and a rumour is in them until it was
returned `limit` times. A query always returns; it returns rumours of the lowest counts and
drops exactly those that it returns for the last time. -/
theorem rumours_returned_exactly {build : Build} {limit : Nat} (positive : 1 ≤ limit)
    {steps : List (PriorityMap × Event)} {m : PriorityMap}
    (run : Run (step build limit) .new steps m)
    (counted : build = .checked ∨ (pushes steps).length ≤ 2 ^ 64) :
    m.h.keys = m.q.keys ∧
    (∀ id, returned steps id ≤ limit) ∧
    (∀ id g, m.h.lookup id = some g ↔ (id, g) ∈ pushes steps ∧ returned steps id < limit) ∧
    ∀ mins maxs, ∃ r m', m.onGossipQuery limit mins maxs = some (r, m') ∧
      (m.taken mins).map (fun id => m.h.lookup id) = r.map some ∧
      (m.taken mins).Nodup ∧ (m.taken mins).length = min GOSSIP_LIMIT m.q.keys.card ∧
      (∀ id ∈ m.taken mins, ∀ other ∈ m.q.keys, other ∉ m.taken mins →
        returned steps id ≤ returned steps other) ∧
      ∀ id ∈ m.q.keys, id ∉ m'.q.keys ↔ id ∈ m.taken mins ∧ returned steps id + 1 = limit := by
  obtain ⟨spread, _⟩ := spread_of_run positive run counted
  refine ⟨spread.keys, spread.bound, spread.rumour, fun mins maxs => ?_⟩
  have least := PriorityQueue.takeMin_least mins GOSSIP_LIMIT m.q
  obtain ⟨r, m', answered, queried⟩ := onGossipQuery_queried spread.keys spread.below mins maxs
  have size : (m.taken mins).length = min GOSSIP_LIMIT m.q.keys.card := by
    rw [taken, List.length_map, least.length]
  refine ⟨r, m', answered, queried.rumours, least.nodup, size,
    fun id listed other kept passed => spread.taken_lowest listed kept passed, ?_⟩
  intro id stored
  obtain ⟨pushed, below⟩ := (spread.mem_keys id).mp stored
  have next : Spread limit (steps ++ [(m, .query mins maxs)]) m' := spread.query queried
  have after := next.mem_keys id
  rw [pushes_query, returned_query] at after
  rw [after]
  by_cases listed : id ∈ m.taken mins
  · simp only [listed, if_true, pushed, true_and]
    omega
  · simp only [listed, if_false, pushed, true_and, false_and, iff_false]
    omega

section Sample

def ascendingIds : Listing GossipId := ascending UInt64.toNat fun _ _ => UInt64.toNat_inj.mp

def ask : Event := .query ascendingIds ascendingIds

/-- With the limit 2, the first of four rumours is dropped at the second of the queries that
return it. -/
theorem rumours_returned_twice : ∃ steps m, Run (step .checked 2) .new steps m ∧
    (pushes steps).length = 4 ∧ returned steps 0 = 2 ∧ returned steps 3 = 1 ∧
    m.h.keys = m.q.keys ∧ (∀ id, returned steps id ≤ 2) ∧
    ∀ mins maxs, ∃ r m', m.onGossipQuery 2 mins maxs = some (r, m') := by
  have found : (exec (step .checked 2) .new ((List.range 4).map (fun n => .gossip (.joiner ⟨n⟩)) ++
      [ask, ask])).any (fun run => decide ((pushes run.1).length = 4 ∧ returned run.1 0 = 2 ∧
        returned run.1 3 = 1)) = true := by
    decide +kernel
  obtain ⟨steps, m, run, facts⟩ := exec_any found
  obtain ⟨four, twice, once⟩ := of_decide_eq_true facts
  obtain ⟨keys, bound, _, queries⟩ := rumours_returned_exactly (by decide) run (.inl rfl)
  refine ⟨steps, m, run, four, twice, once, keys, bound, fun mins maxs => ?_⟩
  obtain ⟨r, m', answered, _⟩ := queries mins maxs
  exact ⟨r, m', answered⟩

end Sample
end PriorityMap
end Subzero.Ice
