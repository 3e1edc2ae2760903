import Subzero.Lib.Supply
import Subzero.Ideal
import Subzero.Ice.Counter

/-! The peers that ice queries. They are sampled from a queue of snapshots that outlives
the sample, so a peer can be drawn again after the queue is filled anew, and a snapshot
can be older than the decision on its peer. -/
namespace Subzero.Ice
namespace Reservoir

/-- Not yet decided: the conviction is below `BETA1`. -/
def isOpen (e : Entry) : Bool := decide (e.conviction < BETA1)

def undecided (r : Reservoir) : Finset Id := r.decisions.kept isOpen

/-- A new queue. -/
def shuffled (order : Listing Id) (r : Reservoir) : List (Id × Entry) :=
  r.decisions.snapshot order isOpen

theorem permute_eq (order : Listing Id) (r : Reservoir) : r.permute order =
    if (r.shuffled order).isEmpty then none
    else some { r with randomQueue := r.shuffled order } := by
  unfold permute
  refine congrArg (fun queue : List (Id × Entry) =>
    if queue.isEmpty then none else some { r with randomQueue := queue }) ?_
  refine List.filterMap_congr fun id _ => ?_
  cases r.decisions.lookup id with
  | none => rfl
  | some e =>
    by_cases strong : BETA1 ≤ e.conviction
    · simp [isOpen, Option.filter_some, strong]
    · simp [isOpen, Option.filter_some, strong, Nat.lt_of_not_le strong]

section Draw
variable (orders : Nat → Listing Id) (n : Nat) (r : Reservoir) (samples : HashMap Id Entry)

theorem draw_append (front : List (Id × Entry)) (entry : Id × Entry) :
    draw orders (n + 1) { r with randomQueue := front ++ [entry] } samples =
      draw orders n { r with randomQueue := front } (samples.insert entry.1 entry.2) := by
  simp [draw]

theorem draw_nil (filled : r.shuffled (orders (n + 1)) ≠ []) :
    draw orders (n + 1) { r with randomQueue := [] } samples =
      draw orders (n + 1) { r with randomQueue := r.shuffled (orders (n + 1)) } samples := by
  obtain ⟨front, entry, queue⟩ := (List.eq_nil_or_concat _).resolve_left filled
  rw [List.concat_eq_append] at queue
  have again : shuffled (orders (n + 1)) { r with randomQueue := [] } = front ++ [entry] := queue
  rw [queue, draw_append]
  simp [draw, permute_eq, again]

/-- The samples are what the queue serves, collected into a map. -/
theorem draw_eq (queue : List (Id × Entry)) :
    draw orders n { r with randomQueue := queue } samples =
      (HashMap.collect (serve (fun n => r.shuffled (orders n)) n queue).1 samples,
        { r with randomQueue := (serve (fun n => r.shuffled (orders n)) n queue).2 }) := by
  induction n, queue using serve_induction (fun n => r.shuffled (orders n))
    generalizing samples with
  | done queue => rfl
  | last n queue entry ih =>
    rw [draw_append, serve_append, ih]
    rfl
  | refill n filled ih => rw [draw_nil orders n r samples filled, serve_nil, ih]
  | stop n empty =>
    have still : shuffled (orders (n + 1)) { r with randomQueue := [] } = [] := empty
    rw [serve_stop empty]
    simp [draw, permute_eq, still, HashMap.collect]

end Draw

/-- What a sample with decisions to sample from draws. -/
def drawn (orders : Nat → Listing Id) (r : Reservoir) : List (Id × Entry) :=
  (serve (fun n => r.shuffled (orders n)) K r.randomQueue).1

theorem sample_eq {r : Reservoir} (some : 0 < r.decisions.keys.card)
    (orders : Nat → Listing Id) :
    (r.sample orders).1 = HashMap.collect (r.drawn orders) ∅ := by
  rw [sample, if_pos some]
  exact congrArg Prod.fst (draw_eq orders K r ∅ r.randomQueue)

/-- The queue is left alone and no decision is dropped. -/
structure Keeps (r r' : Reservoir) : Prop where
  queue : r'.randomQueue = r.randomQueue
  known : ∀ id ∈ r.decisions, id ∈ r'.decisions

section Keeps
variable {r r' r'' : Reservoir}

theorem Keeps.refl (r : Reservoir) : Keeps r r := ⟨rfl, fun _ known => known⟩

theorem Keeps.trans (first : Keeps r r') (second : Keeps r' r'') : Keeps r r'' :=
  ⟨second.queue.trans first.queue, fun id known => second.known id (first.known id known)⟩

theorem keeps_insert (peerId : Id) (ip : SocketAddr) (choice : Choice) (conviction : Nat) :
    Keeps r (r.insert peerId ip choice conviction) :=
  ⟨rfl, fun _ known => Finmap.mem_insert.mpr (.inr known)⟩

theorem keeps_modify (id : Id) (f : Entry → Entry) : Keeps r (r.modify id f) := by
  unfold modify
  split
  · exact ⟨rfl, fun _ known => Finmap.mem_insert.mpr (.inr known)⟩
  · exact .refl r

theorem keeps_processQuorum (responderId peerId : Id) (choice : Choice) :
    Keeps r (r.processQuorum responderId peerId choice).2 := by
  refine ⟨?_, fun id known => by rwa [processQuorum_decisions]⟩
  unfold processQuorum
  split
  · split <;> rfl
  · rfl

theorem keeps_processDecision (id : Id) (q : Quorum) : Keeps r (r.processDecision id q).2 := by
  unfold processDecision
  split
  · split
    · exact ⟨rfl, fun _ known => Finmap.mem_insert.mpr (.inr known)⟩
    · exact ⟨rfl, fun _ known => known⟩
  · have erased : Keeps r { r with quorums := r.quorums.erase id } := ⟨rfl, fun _ known => known⟩
    exact erased.trans (keeps_modify id _)

theorem keeps_processOutcome (responderId : Id) (outcome : Outcome) :
    Keeps r (r.processOutcome responderId outcome).2 := by
  have counted := @keeps_processQuorum r responderId outcome.peerId outcome.choice
  cases pending : r.completed responderId outcome with
  | none => rwa [processOutcome_open pending]
  | some q =>
    rw [processOutcome_complete pending]
    exact counted.trans (keeps_processDecision outcome.peerId q)

theorem keeps_fill (responderId : Id) (outcomes : List Outcome) :
    Keeps r (r.fill responderId outcomes).2 := by
  have loop : ∀ r : Reservoir, Keeps r (processOutcomes responderId outcomes r).2 := by
    induction outcomes with
    | nil => exact .refl
    | cons outcome outcomes ih =>
      exact fun r => (keeps_processOutcome responderId outcome).trans (ih _)
  exact (keeps_modify responderId _).trans (loop _)

end Keeps

/-- The queue has one snapshot at most for each peer, and only of peers with a decision. -/
structure Queued (r : Reservoir) : Prop where
  single : (r.randomQueue.map Prod.fst).Nodup
  known : ∀ entry ∈ r.randomQueue, entry.1 ∈ r.decisions

theorem Queued.keeps {r r' : Reservoir} (queued : r.Queued) (keeps : Keeps r r') : r'.Queued := by
  constructor
  · rw [keeps.queue]
    exact queued.single
  · intro entry waiting
    rw [keeps.queue] at waiting
    exact keeps.known _ (queued.known entry waiting)

theorem Queued.sample {r : Reservoir} (queued : r.Queued) (orders : Nat → Listing Id) :
    (r.sample orders).2.Queued := by
  unfold Reservoir.sample
  split
  · let Fine (queue : List (Id × Entry)) : Prop :=
      (queue.map Prod.fst).Nodup ∧ ∀ entry ∈ queue, entry.1 ∈ r.decisions
    have fine : Fine (serve (fun n => r.shuffled (orders n)) K r.randomQueue).2 := by
      refine serve_keeps (fun n => ⟨HashMap.nodup_snapshot, fun entry listed => ?_⟩)
        (fun queue entry fine => ⟨?_, fun entry listed => ?_⟩) ⟨queued.single, queued.known⟩
      · exact Finmap.mem_of_lookup_eq_some (HashMap.mem_snapshot.mp listed).1
      · exact fine.1.sublist ((List.sublist_append_left queue _).map Prod.fst)
      · exact fine.2 entry (List.mem_append_left _ listed)
    rw [show draw orders K r ∅ = _ from draw_eq orders K r ∅ r.randomQueue]
    exact ⟨fine.1, fine.2⟩
  · exact queued

theorem Queued.operation {r : Reservoir} (queued : r.Queued) (op : Operation) :
    (r.perform op).Queued := by
  cases op with
  | insert peerId ip choice => exact queued.keeps (keeps_insert peerId ip choice 0)
  | insertNew peerId ip choice =>
    simp only [perform, insertNew]
    split
    · exact queued
    · exact queued.keeps (keeps_insert peerId ip choice 0)
  | setChoice peerId choice => exact queued.keeps (keeps_modify peerId _)
  | updateChoice peerId choice => exact queued.keeps (keeps_modify peerId _)
  | sample orders => exact queued.sample orders
  | fill responderId outcomes => exact queued.keeps (keeps_fill responderId outcomes)

theorem queued_run {steps : List (Reservoir × Operation)} {last : Reservoir}
    (run : Run step new steps last) : last.Queued := by
  refine run.invariant (fun _ _ => True) (fun _ _ => trivial) Queued
    ⟨List.nodup_nil, by simp [new]⟩ ?_
  intro r op r' queued _ taken
  cases Option.some.inj taken
  exact queued.operation op

/-- An undecided peer with its current address and choice. -/
def Current (r : Reservoir) (entry : Id × Entry) : Prop :=
  ∃ now, r.decisions.lookup entry.1 = some now ∧ now.conviction < BETA1 ∧
    entry.2.ip = now.ip ∧ entry.2.choice = now.choice

/-- The samples are `min(K, u)` undecided peers, `u` being the number of them. -/
structure Proper (r : Reservoir) (samples : HashMap Id Entry) : Prop where
  size : samples.keys.card = min K r.undecided.card
  current : ∀ id e, samples.lookup id = some e → r.Current (id, e)

/-- The queue is empty, or the next `K` snapshots are current, or they and all undecided
peers fit into one sample. -/
def Fresh (r : Reservoir) : Prop :=
  r.randomQueue = [] ∨
  K ≤ r.randomQueue.length ∧ (∀ entry ∈ r.randomQueue.reverse.take K, r.Current entry) ∨
  r.randomQueue.length + r.undecided.card ≤ K ∧ ∀ entry ∈ r.randomQueue, entry.1 ∈ r.undecided

section Proper
variable {r : Reservoir}

theorem Current.undecided {entry : Id × Entry} (current : r.Current entry) :
    entry.1 ∈ r.undecided := by
  obtain ⟨now, found, weak, _⟩ := current
  exact HashMap.mem_kept.mpr ⟨now, found, decide_eq_true weak⟩

theorem current_shuffled {order : Listing Id} {entry : Id × Entry}
    (listed : entry ∈ r.shuffled order) : r.Current entry := by
  obtain ⟨found, weak⟩ := HashMap.mem_snapshot.mp listed
  exact ⟨entry.2, found, of_decide_eq_true weak, rfl, rfl⟩

/-- Snapshots that are drawn once more later on do not matter. -/
theorem proper_collect {early late : List (Id × Entry)} (current : ∀ entry ∈ late, r.Current entry)
    (again : ∀ entry ∈ early, entry.1 ∈ late.map Prod.fst)
    (size : (late.map Prod.fst).toFinset.card = min K r.undecided.card) :
    r.Proper (HashMap.collect (early ++ late) ∅) := by
  have keys : ∀ id ∈ (early ++ late).map Prod.fst, id ∈ late.map Prod.fst := by
    intro id listed
    rw [List.map_append, List.mem_append] at listed
    rcases listed with before | after
    · obtain ⟨entry, there, rfl⟩ := List.mem_map.mp before
      exact again entry there
    · exact after
  constructor
  · have same : ((early ++ late).map Prod.fst).toFinset = (late.map Prod.fst).toFinset := by
      ext id
      rw [List.mem_toFinset, List.mem_toFinset]
      refine ⟨keys id, fun listed => ?_⟩
      rw [List.map_append]
      exact List.mem_append_right _ listed
    rw [HashMap.keys_collect, same, size]
  · intro id e found
    have listed : id ∈ (HashMap.collect (early ++ late) ∅).keys :=
      HashMap.mem_keys_of_lookup found
    rw [HashMap.keys_collect, List.mem_toFinset] at listed
    obtain ⟨e', there, here⟩ := HashMap.lookup_collect_of_mem (m := HashMap.collect early ∅)
      (keys id listed)
    rw [HashMap.collect_append, here] at found
    cases Option.some.inj found
    exact current _ there

theorem keys_undecided {late : List (Id × Entry)} (current : ∀ entry ∈ late, r.Current entry) :
    (late.map Prod.fst).toFinset ⊆ r.undecided := by
  intro id listed
  obtain ⟨entry, there, rfl⟩ := List.mem_map.mp (List.mem_toFinset.mp listed)
  exact (current entry there).undecided

theorem proper_of_enough {late : List (Id × Entry)} (current : ∀ entry ∈ late, r.Current entry)
    (single : (late.map Prod.fst).Nodup) (length : late.length = K) :
    r.Proper (HashMap.collect late ∅) := by
  have card : (late.map Prod.fst).toFinset.card = K := by
    rw [List.toFinset_card_of_nodup single, List.length_map, length]
  have bound := card ▸ Finset.card_le_card (keys_undecided current)
  exact @proper_collect r [] late current (by simp) (card.trans (min_eq_left bound).symm)

theorem proper_of_all {early late : List (Id × Entry)} (current : ∀ entry ∈ late, r.Current entry)
    (again : ∀ entry ∈ early, entry.1 ∈ r.undecided) (few : r.undecided.card ≤ K)
    (all : ∀ id ∈ r.undecided, id ∈ late.map Prod.fst) :
    r.Proper (HashMap.collect (early ++ late) ∅) := by
  refine proper_collect current (fun entry listed => all _ (again entry listed)) ?_
  have same : (late.map Prod.fst).toFinset = r.undecided :=
    (keys_undecided current).antisymm fun id known => List.mem_toFinset.mpr (all id known)
  rw [same, min_eq_right few]

/-- What an empty queue serves is current. -/
theorem current_serve {orders : Nat → Listing Id} {n : Nat} {entry : Id × Entry}
    (served : entry ∈ (serve (fun n => r.shuffled (orders n)) n []).1) : r.Current entry := by
  obtain ⟨m, listed⟩ := (mem_serve served).resolve_left (by simp)
  exact current_shuffled listed

theorem length_shuffled (order : Listing Id) : (r.shuffled order).length = r.undecided.card :=
  HashMap.length_snapshot

/-- An empty queue serves all undecided peers before it serves one again. -/
theorem all_served (orders : Nat → Listing Id) {n : Nat} (few : r.undecided.card ≤ n) {id : Id}
    (known : id ∈ r.undecided) :
    id ∈ (serve (fun n => r.shuffled (orders n)) n []).1.map Prod.fst := by
  have positive := few.trans' (Finset.card_pos.mpr ⟨id, known⟩)
  obtain ⟨n, rfl⟩ := Nat.exists_eq_add_one.mpr positive
  have whole : (r.shuffled (orders (n + 1))).reverse.length ≤ n + 1 := by
    rwa [List.length_reverse, length_shuffled]
  rw [serve_filling, List.take_of_length_le whole, List.map_append, List.map_reverse]
  obtain ⟨e, found, weak⟩ := HashMap.mem_kept.mp known
  have listed : (id, e) ∈ r.shuffled (orders (n + 1)) := HashMap.mem_snapshot.mpr ⟨found, weak⟩
  exact List.mem_append_left _ (List.mem_reverse.mpr (List.mem_map_of_mem (f := Prod.fst) listed))

end Proper

section Sampling
variable {r : Reservoir}

theorem Fresh.drawn (fresh : r.Fresh) (queued : r.Queued) (orders : Nat → Listing Id) :
    r.Proper (HashMap.collect (r.drawn orders) ∅) := by
  unfold Reservoir.drawn
  rcases fresh with empty | ⟨long, current⟩ | ⟨fits, known⟩
  · rw [empty]
    rcases Nat.le_total K r.undecided.card with enough | few
    · have length : K ≤ (r.shuffled (orders K)).length := by rwa [length_shuffled]
      rw [serve_whole length]
      refine proper_of_enough (fun entry taken => ?_) ?_ ?_
      · exact current_shuffled (List.mem_reverse.mp (List.mem_of_mem_take taken))
      · exact nodup_take_reverse HashMap.nodup_snapshot K
      · exact length_take_reverse length
    · exact @proper_of_all r [] _ (fun _ => current_serve) (by simp) few
        fun _ => all_served orders few
  · rw [serve_of_le long]
    exact proper_of_enough current (nodup_take_reverse queued.single K) (length_take_reverse long)
  · have short : r.randomQueue.reverse.length ≤ K := by
      rw [List.length_reverse]
      exact Nat.le_of_add_right_le fits
    rw [serve_eq, List.take_of_length_le short]
    refine proper_of_all (fun _ => current_serve) (fun entry waiting => ?_)
      (Nat.le_of_add_left_le fits) fun _ => all_served orders (Nat.le_sub_of_add_le' fits)
    exact known entry (List.mem_reverse.mp waiting)

/-- A sample of the empty reservoir is empty. -/
theorem proper_empty (none : ¬ 0 < r.decisions.keys.card) : r.Proper ∅ := by
  have empty : r.undecided = ∅ := by
    rw [undecided, HashMap.kept, Finset.card_eq_zero.mp (Nat.eq_zero_of_not_pos none)]
    rfl
  constructor
  · rw [empty]
    rfl
  · intro id e found
    rw [Finmap.lookup_empty] at found
    contradiction

/-- With one snapshot left, a sample is proper for every shuffle only if its peer is the
only undecided one. -/
theorem alone {id : Id} {e : Entry} (left : r.randomQueue = [(id, e)])
    (proper : ∀ orders, r.Proper (HashMap.collect (r.drawn orders) ∅)) :
    r.undecided.card ≤ 1 ∧ id ∈ r.undecided := by
  obtain ⟨order⟩ : Nonempty (Listing Id) := Listing.exists
  have first : ∀ orders, ∃ more, r.drawn orders = (id, e) :: more := by
    intro orders
    rw [drawn, left, serve_eq]
    exact ⟨_, rfl⟩
  have known : id ∈ r.undecided := by
    obtain ⟨more, eq⟩ := first fun _ => order
    have listed : id ∈ (r.drawn fun _ => order).map Prod.fst := by simp [eq]
    obtain ⟨e', _, found⟩ := HashMap.lookup_collect_of_mem listed
    exact ((proper _).current id e' found).undecided
  refine ⟨?_, known⟩
  -- a shuffle that puts the peer last draws it again
  obtain ⟨now, found, weak⟩ := HashMap.mem_kept.mp known
  obtain ⟨front, last⟩ := HashMap.snapshot_last order found weak
  have twice : (r.drawn fun _ => order.last id) = [(id, e), (id, now)] := by
    have filling : r.shuffled (order.last id) = front ++ [(id, now)] := last
    have again : (serve (fun _ => r.shuffled (order.last id)) 1 []).1 = [(id, now)] := by
      rw [serve_nil, filling, serve_append]
      rfl
    rw [drawn, left, serve_eq]
    exact congrArg _ again
  have size := (proper fun _ => order.last id).size
  rw [twice, HashMap.keys_collect] at size
  have one : ([(id, e), (id, now)].map Prod.fst).toFinset.card = 1 := by simp
  rw [one, K] at size
  omega

theorem Queued.fresh (queued : r.Queued) (proper : ∀ orders, r.Proper (r.sample orders).1) :
    r.Fresh := by
  rcases List.eq_nil_or_concat r.randomQueue with empty | ⟨front, entry, filled⟩
  · exact .inl empty
  have waiting : entry ∈ r.randomQueue := by simp [filled]
  have some : 0 < r.decisions.keys.card :=
    Finset.card_pos.mpr ⟨entry.1, Finmap.mem_keys.mpr (queued.known entry waiting)⟩
  have drawn : ∀ orders, r.Proper (HashMap.collect (r.drawn orders) ∅) := fun orders =>
    sample_eq some orders ▸ proper orders
  rcases Nat.lt_or_ge r.randomQueue.length K with short | long
  · have length : r.randomQueue.length = 1 := by
      have positive := List.length_pos_of_mem waiting
      rw [K] at short
      omega
    obtain ⟨only, left⟩ := List.length_eq_one_iff.mp length
    obtain ⟨few, known⟩ := alone left drawn
    refine .inr (.inr ⟨?_, fun entry waiting => ?_⟩)
    · rw [length, K]
      omega
    · rw [left, List.mem_singleton] at waiting
      exact waiting ▸ known
  · obtain ⟨order⟩ : Nonempty (Listing Id) := Listing.exists
    refine .inr (.inl ⟨long, fun entry taken => ?_⟩)
    refine (drawn fun _ => order).current entry.1 entry.2 ?_
    rw [Reservoir.drawn, serve_of_le long,
      HashMap.lookup_collect (nodup_take_reverse queued.single K)]
    exact taken

/-- In every reachable state: a sample is proper for every shuffle exactly if the queue
is fresh. -/
theorem sample_proper_iff {steps : List (Reservoir × Operation)} (run : Run step new steps r) :
    (∀ orders, r.Proper (r.sample orders).1) ↔ r.Fresh := by
  have queued := queued_run run
  refine ⟨queued.fresh, fun fresh orders => ?_⟩
  by_cases some : 0 < r.decisions.keys.card
  · rw [sample_eq some]
    exact fresh.drawn queued orders
  · rw [sample, if_neg some]
    exact proper_empty some

end Sampling

section Sample

/-- Three undecided peers, of which two have been sampled. -/
def threePeers : List Operation :=
  [.insert (peer 1) "a" .live, .insert (peer 2) "b" .live, .insert (peer 3) "c" .live,
    .sample fun _ => ascendingOrder.ids]

/-- The peer that is left is drawn, and again from the next shuffle: of three undecided peers
one is sampled. If it is found faulty before, it is still sampled as a live one. -/
theorem sample_repeats : (∃ steps r, Run step new steps r ∧ r.undecided.card = 3 ∧
      (r.sample fun _ => ascendingOrder.ids.last (peer 1)).1.keys = {peer 1}) ∧
    ∃ steps r, Run step new steps r ∧ r.decisions.lookup (peer 1) = some ⟨"a", .faulty, 0⟩ ∧
      (r.sample fun _ => ascendingOrder.ids).1.lookup (peer 1) = some ⟨"a", .live, 0⟩ := by
  have again : (exec step new threePeers).any (fun run => decide (run.2.undecided.card = 3 ∧
      (run.2.sample fun _ => ascendingOrder.ids.last (peer 1)).1.keys = {peer 1})) = true := by
    decide +kernel
  have stale : (exec step new (threePeers ++ [.updateChoice (peer 1) .faulty])).any (fun run =>
      decide (run.2.decisions.lookup (peer 1) = some ⟨"a", .faulty, 0⟩ ∧
        (run.2.sample fun _ => ascendingOrder.ids).1.lookup (peer 1) =
          some ⟨"a", .live, 0⟩)) = true := by
    decide +kernel
  constructor
  · obtain ⟨steps, r, run, facts⟩ := exec_any again
    exact ⟨steps, r, run, of_decide_eq_true facts⟩
  · obtain ⟨steps, r, run, facts⟩ := exec_any stale
    exact ⟨steps, r, run, of_decide_eq_true facts⟩

/-- Of four peers two are sampled, and the two others are sampled properly by any shuffle. -/
theorem sample_proper_four : ∃ steps r, Run step new steps r ∧ r.undecided.card = 4 ∧
    r.randomQueue.length = 2 ∧ ∀ orders, r.Proper (r.sample orders).1 := by
  have found : (exec step new (.insertNew (peer 4) "d" .faulty :: threePeers)).any (fun run =>
      decide (run.2.undecided.card = 4 ∧ run.2.randomQueue =
        [(peer 1, ⟨"a", .live, 0⟩), (peer 2, ⟨"b", .live, 0⟩)] ∧
        run.2.decisions.lookup (peer 1) = some ⟨"a", .live, 0⟩ ∧
        run.2.decisions.lookup (peer 2) = some ⟨"b", .live, 0⟩)) = true := by
    decide +kernel
  obtain ⟨steps, r, run, facts⟩ := exec_any found
  obtain ⟨four, queue, one, two⟩ := of_decide_eq_true facts
  refine ⟨steps, r, run, four, by rw [queue]; rfl, (sample_proper_iff run).mpr ?_⟩
  refine .inr (.inl ⟨by rw [queue]; decide, fun entry taken => ?_⟩)
  rw [queue] at taken
  obtain rfl | rfl := List.mem_pair.mp taken
  · exact ⟨_, two, by decide, rfl, rfl⟩
  · exact ⟨_, one, by decide, rfl, rfl⟩

end Sample

end Reservoir
end Subzero.Ice
