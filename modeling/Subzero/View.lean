import Subzero.Lib.Run
import Subzero.Lib.Supply
import Subzero.Ideal
import Subzero.Cell

/-! The view of the peers, a map that random entries are taken from. They come from a queue
that is a shuffled copy of the map. It outlives the call, and it does not follow the map. -/
namespace Subzero

structure SampleableMap (K V : Type) where
  map : HashMap K V
  queue : List (K × V)

namespace SampleableMap
variable {K V : Type} [DecidableEq K]

def new : SampleableMap K V := ⟨∅, []⟩

/-- The `insert` of the map itself, which returns the value that was there. -/
def insert (m : SampleableMap K V) (k : K) (v : V) : Option V × SampleableMap K V :=
  (m.map.lookup k, { m with map := m.map.insert k v })

def len (m : SampleableMap K V) : Nat := m.map.keys.card

/-- The order is that of the shuffle. -/
def nextQueue (order : Listing K) (m : SampleableMap K V) : List (K × V) :=
  (order.list m.map.keys).filterMap fun k => (m.map.lookup k).map fun v => (k, v)

/-- The loop of `sample`, a turn for each unit of fuel; `none` if there are more turns. The
queue is filled once at most for each number of entries to go, with the shuffle `orders`
of that number. -/
def sampleLoop (orders : Nat → Listing K) (k : Nat) : Nat → Nat → List (K × V) →
    SampleableMap K V → Option (List (K × V) × SampleableMap K V)
  | 0, _, _, _ => none
  | fuel + 1, i, result, m =>
    if k ≤ i then some (result, m)
    else
      match m.queue.getLast? with
      | some val =>
        sampleLoop orders k fuel (i + 1) (result ++ [val]) { m with queue := m.queue.dropLast }
      | none =>
        let m := { m with queue := m.nextQueue (orders (k - i)) }
        if 0 < m.queue.length then sampleLoop orders k fuel i result m else some (result, m)

def sample (orders : Nat → Listing K) (m : SampleableMap K V) (k : Nat) :
    Option (List (K × V) × SampleableMap K V) :=
  sampleLoop orders k (2 * k + 1) 0 [] m

theorem nextQueue_eq (order : Listing K) (m : SampleableMap K V) :
    m.nextQueue order = m.map.snapshot order fun _ => true := by
  refine List.filterMap_congr fun k _ => ?_
  cases m.map.lookup k <;> rfl

section Loop
variable (orders : Nat → Listing K) (map : HashMap K V)

/-- The fillings of the queue. -/
def fillings (n : Nat) : List (K × V) := map.snapshot (orders n) fun _ => true

/-- One turn takes the last entry. -/
theorem sampleLoop_append {k i : Nat} (more : i < k) (fuel : Nat) (result front : List (K × V))
    (val : K × V) : sampleLoop orders k (fuel + 1) i result ⟨map, front ++ [val]⟩ =
      sampleLoop orders k fuel (i + 1) (result ++ [val]) ⟨map, front⟩ := by
  simp [sampleLoop, Nat.not_le.mpr more]

/-- The loop ends: two turns for each entry to go and the last one are enough. It returns
what the queue serves. -/
theorem sampleLoop_eq {k i n fuel : Nat} (toGo : i + n = k) (enough : 2 * n < fuel)
    (result queue : List (K × V)) : sampleLoop orders k fuel i result ⟨map, queue⟩ =
      some (result ++ (serve (fillings orders map) n queue).1,
        ⟨map, (serve (fillings orders map) n queue).2⟩) := by
  induction n generalizing i fuel result queue with
  | zero =>
    obtain ⟨fuel, rfl⟩ := Nat.exists_eq_add_one.mpr (Nat.zero_lt_of_lt enough)
    simp [sampleLoop, serve, ← toGo]
  | succ n ih =>
    have more : i < k := by omega
    have last : ∀ fuel front val, 2 * n < fuel →
        sampleLoop orders k (fuel + 1) i result ⟨map, front ++ [val]⟩ =
          some (result ++ (serve (fillings orders map) (n + 1) (front ++ [val])).1,
            ⟨map, (serve (fillings orders map) (n + 1) (front ++ [val])).2⟩) := by
      intro fuel front val enough
      rw [sampleLoop_append orders map more, serve_append, ih (by omega) enough]
      simp
    obtain ⟨fuel, rfl⟩ : ∃ f, fuel = f + 1 + 1 := ⟨fuel - 2, by omega⟩
    rcases queue.eq_nil_or_concat with rfl | ⟨front, val, rfl⟩
    · have filling : nextQueue (orders (k - i)) ⟨map, []⟩ = fillings orders map (n + 1) := by
        rw [nextQueue_eq, ← toGo, Nat.add_sub_cancel_left]
        rfl
      rw [serve_nil]
      rcases (fillings orders map (n + 1)).eq_nil_or_concat with empty | ⟨front, val, filled⟩
      · simp [sampleLoop, Nat.not_le.mpr more, filling, serve, empty]
      · rw [filled, List.concat_eq_append, ← last fuel front val (by omega)]
        rw [sampleLoop]
        simp [Nat.not_le.mpr more, filling, filled]
    · rw [List.concat_eq_append, last (fuel + 1) front val (by omega)]

theorem sample_eq (m : SampleableMap K V) (k : Nat) : m.sample orders k =
    some ((serve (fillings orders m.map) k m.queue).1,
      ⟨m.map, (serve (fillings orders m.map) k m.queue).2⟩) :=
  sampleLoop_eq orders m.map (Nat.zero_add k) (Nat.lt_succ_self _) [] m.queue

end Loop

inductive Operation (K V : Type) where
  | insert (k : K) (v : V)
  | sample (orders : Nat → Listing K) (k : Nat)

def step (m : SampleableMap K V) : Operation K V → Option (SampleableMap K V)
  | .insert k v => some (m.insert k v).2
  | .sample orders k => (m.sample orders k).map Prod.snd

/-- No key is twice in the queue. -/
def Single (m : SampleableMap K V) : Prop := (m.queue.map Prod.fst).Nodup

theorem Single.sample {m m' : SampleableMap K V} (single : m.Single) {orders : Nat → Listing K}
    {k : Nat} {result : List (K × V)} (done : m.sample orders k = some (result, m')) :
    m'.Single := by
  rw [sample_eq] at done
  cases Option.some.inj done
  refine serve_keeps (P := fun queue : List (K × V) => (queue.map Prod.fst).Nodup) ?_ ?_ single
  · exact fun n => HashMap.nodup_snapshot
  · exact fun queue entry fine => fine.sublist ((List.sublist_append_left queue _).map Prod.fst)

theorem single_run {steps : List (SampleableMap K V × Operation K V)} {last : SampleableMap K V}
    (run : Run step new steps last) : last.Single := by
  refine run.invariant (fun _ _ => True) (fun _ _ => trivial) Single List.nodup_nil ?_
  intro m op m' single _ taken
  cases op with
  | insert k v =>
    cases Option.some.inj taken
    exact single
  | sample orders k =>
    obtain ⟨⟨result, after⟩, done, rfl⟩ := Option.map_eq_some_iff.mp taken
    exact single.sample done

/-- As many entries as asked for, with distinct keys and the values that the map has. -/
structure Distinct (m : SampleableMap K V) (k : Nat) (result : List (K × V)) : Prop where
  length : result.length = k
  keys : (result.map Prod.fst).Nodup
  current : ∀ entry ∈ result, m.map.lookup entry.1 = some entry.2

theorem distinct_take {m : SampleableMap K V} {k : Nat} {queue : List (K × V)}
    (single : (queue.map Prod.fst).Nodup) (long : k ≤ queue.length)
    (current : ∀ entry ∈ queue.reverse.take k, m.map.lookup entry.1 = some entry.2) :
    m.Distinct k (queue.reverse.take k) :=
  ⟨length_take_reverse long, nodup_take_reverse single k, current⟩

/-- An entry that is left over comes again if the next shuffle puts its key last. -/
theorem repeats {m : SampleableMap K V} {k : Nat} {front : List (K × V)} {entry : K × V}
    (filled : m.queue = front ++ [entry]) (short : m.queue.length < k)
    (current : m.map.lookup entry.1 = some entry.2) (order : Listing K) :
    ¬ ((serve (fillings (fun _ => order.last entry.1) m.map) k m.queue).1.map Prod.fst).Nodup := by
  obtain ⟨others, last⟩ :=
    @HashMap.snapshot_last _ _ _ (fun _ => true) m.map entry.1 entry.2 order current rfl
  have filling : ∀ n, fillings (fun _ => order.last entry.1) m.map n = others ++ [entry] :=
    fun _ => last
  obtain ⟨n, toGo⟩ := Nat.exists_eq_add_one.mpr (Nat.sub_pos_of_lt short)
  rw [serve_eq, toGo, serve_nil, filling, serve_append,
    List.take_of_length_le (by rw [List.length_reverse]; exact short.le), filled]
  simp

/-- A sample is right for every shuffle exactly if the queue is empty or long enough and
the entries that come next are current. -/
theorem Single.distinct_iff {m : SampleableMap K V} (single : m.Single) {k : Nat}
    (enough : k ≤ m.len) :
    (∀ orders, ∃ result m', m.sample orders k = some (result, m') ∧ m.Distinct k result) ↔
      (m.queue = [] ∨ k ≤ m.queue.length) ∧
        ∀ entry ∈ m.queue.reverse.take k, m.map.lookup entry.1 = some entry.2 := by
  constructor
  · intro distinct
    have served : ∀ orders, m.Distinct k (serve (fillings orders m.map) k m.queue).1 := by
      intro orders
      obtain ⟨result, m', done, fine⟩ := distinct orders
      rw [sample_eq] at done
      cases Option.some.inj done
      exact fine
    obtain ⟨order⟩ : Nonempty (Listing K) := Listing.exists
    have current : ∀ entry ∈ m.queue.reverse.take k, m.map.lookup entry.1 = some entry.2 := by
      intro entry taken
      refine (served fun _ => order).current entry ?_
      rw [serve_eq]
      exact List.mem_append_left _ taken
    refine ⟨?_, current⟩
    rcases m.queue.eq_nil_or_concat with empty | ⟨front, entry, filled⟩
    · exact .inl empty
    · refine .inr (Nat.le_of_not_lt fun short => ?_)
      rw [List.concat_eq_append] at filled
      have first : entry ∈ m.queue.reverse.take k := by
        rw [List.take_of_length_le (by rw [List.length_reverse]; exact short.le)]
        simp [filled]
      exact repeats filled short (current entry first) order (served _).keys
  · rintro ⟨aligned, current⟩ orders
    refine ⟨_, _, sample_eq orders m k, ?_⟩
    rcases aligned with empty | long
    · have length : k ≤ (fillings orders m.map k).length := by
        rwa [fillings, HashMap.length_snapshot, HashMap.kept_all]
      rw [empty, serve_whole length]
      refine distinct_take HashMap.nodup_snapshot length fun entry taken => ?_
      exact (HashMap.mem_snapshot.mp (List.mem_reverse.mp (List.mem_of_mem_take taken))).1
    · rw [serve_of_le long]
      exact distinct_take single long current

/-- In every reachable map `sample` returns. It returns distinct current entries for every
shuffle exactly if the queue is empty or long enough and the entries that come next are
current. -/
theorem sample_distinct_iff {steps : List (SampleableMap K V × Operation K V)}
    {m : SampleableMap K V} (run : Run step new steps m) (k : Nat) (enough : k ≤ m.len) :
    (∀ orders, (m.sample orders k).isSome = true) ∧
    ((∀ orders, ∃ result m', m.sample orders k = some (result, m') ∧ m.Distinct k result) ↔
      (m.queue = [] ∨ k ≤ m.queue.length) ∧
        ∀ entry ∈ m.queue.reverse.take k, m.map.lookup entry.1 = some entry.2) := by
  refine ⟨fun orders => ?_, (single_run run).distinct_iff enough⟩
  rw [sample_eq]
  rfl

section Sample

/-- Three peers, of which two have been sampled. -/
def threePeers : List (Operation Id SocketAddr) :=
  [.insert ⟨1⟩ "a", .insert ⟨2⟩ "b", .insert ⟨3⟩ "c", .sample (fun _ => ascendingOrder.ids) 2]

/-- The entry that is left over is taken twice. If its value is replaced before, the old one
is taken. -/
theorem sample_takes_leftover : (∃ steps m, Run step (new : SampleableMap Id SocketAddr) steps m ∧
      m.len = 3 ∧ ∃ m', m.sample (fun _ => ascendingOrder.ids.last ⟨1⟩) 2 =
        some ([(⟨1⟩, "a"), (⟨1⟩, "a")], m')) ∧
    ∃ steps m, Run step (new : SampleableMap Id SocketAddr) steps m ∧ m.len = 3 ∧
      m.map.lookup ⟨1⟩ = some "d" ∧
      ∃ m', m.sample (fun _ => ascendingOrder.ids) 1 = some ([(⟨1⟩, "a")], m') := by
  have again : (exec step new threePeers).any (fun run => decide (run.2.len = 3) &&
      (run.2.sample (fun _ => ascendingOrder.ids.last ⟨1⟩) 2).any fun r =>
        decide (r.1 = [(⟨1⟩, "a"), (⟨1⟩, "a")])) = true := by
    decide +kernel
  have stale : (exec step new (threePeers ++ [.insert ⟨1⟩ "d"])).any (fun run =>
      decide (run.2.len = 3 ∧ run.2.map.lookup ⟨1⟩ = some "d") &&
        (run.2.sample (fun _ => ascendingOrder.ids) 1).any fun r =>
          decide (r.1 = [(⟨1⟩, "a")])) = true := by
    decide +kernel
  constructor
  · obtain ⟨steps, m, run, facts⟩ := exec_any again
    obtain ⟨three, sampled⟩ := (Bool.and_eq_true _ _).mp facts
    obtain ⟨⟨result, m'⟩, done, same⟩ := (Option.any_eq_true _ _).mp sampled
    exact ⟨steps, m, run, of_decide_eq_true three, m', of_decide_eq_true same ▸ done⟩
  · obtain ⟨steps, m, run, facts⟩ := exec_any stale
    obtain ⟨known, sampled⟩ := (Bool.and_eq_true _ _).mp facts
    obtain ⟨three, now⟩ := of_decide_eq_true known
    obtain ⟨⟨result, m'⟩, done, same⟩ := (Option.any_eq_true _ _).mp sampled
    exact ⟨steps, m, run, three, now, m', of_decide_eq_true same ▸ done⟩

/-- One more entry is taken as it should be. -/
theorem sample_distinct_one : ∃ steps m, Run step (new : SampleableMap Id SocketAddr) steps m ∧
    m.queue.length = 1 ∧
    ∀ orders, ∃ result m', m.sample orders 1 = some (result, m') ∧ m.Distinct 1 result := by
  have found : (exec step new threePeers).any (fun run => decide (1 ≤ run.2.len ∧
      run.2.queue = [(⟨1⟩, "a")] ∧ run.2.map.lookup ⟨1⟩ = some "a")) = true := by
    decide +kernel
  obtain ⟨steps, m, run, facts⟩ := exec_any found
  obtain ⟨enough, queue, current⟩ := of_decide_eq_true facts
  refine ⟨steps, m, run, by rw [queue]; rfl, (sample_distinct_iff run 1 enough).2.mpr ?_⟩
  rw [queue]
  refine ⟨.inr (by decide), fun entry taken => ?_⟩
  rw [List.mem_singleton.mp taken]
  exact current

end Sample
end SampleableMap

/-- The most peers that are told to others. -/
def PEER_LIST_MAX : Nat := 3
def BOOTSTRAP_QUORUM : Nat := 2

structure View where
  ip : SocketAddr
  nodeId : Id
  peers : SampleableMap Id SocketAddr
  peerList : Finset (Id × SocketAddr)

structure VersionAck where
  ip : SocketAddr
  id : Id
  peerList : List (Id × SocketAddr)

namespace View

def new (ip : SocketAddr) (nodeId : Id) : View := ⟨ip, nodeId, .new, ∅⟩

def addToPeerList (v : View) (id : Id) (ip : SocketAddr) : View :=
  if v.peerList.card < PEER_LIST_MAX then
    if (id, ip) ∈ v.peerList then v else { v with peerList := Insert.insert (id, ip) v.peerList }
  else v

def init (v : View) : List (Id × SocketAddr) → View
  | [] => v
  | (id, ip) :: peers =>
    init ({ v with peers := (v.peers.insert id ip).2 }.addToPeerList id ip) peers

/-- Returns whether the peer is a new one. The address of a known peer is replaced. -/
def insertUpdate (v : View) (id : Id) (ip : SocketAddr) : Bool × View :=
  if id = v.nodeId then (false, v)
  else
    let (old, peers) := v.peers.insert id ip
    match old with
    | some _ => (false, { v with peers := peers })
    | none => (true, { v with peers := peers }.addToPeerList id ip)

def sampleK (orders : Nat → Listing Id) (v : View) (k : Nat) :
    Option (List (Id × SocketAddr) × View) :=
  if k ≤ v.peers.len then
    (v.peers.sample orders k).map fun (result, peers) => (result, { v with peers := peers })
  else some ([], v)

/-- A peer asks for the version. -/
def version (order : Listing (Id × SocketAddr)) (v : View) (id : Id) (ip : SocketAddr) :
    VersionAck × View :=
  let v := (v.insertUpdate id ip).2
  (⟨v.ip, v.nodeId, order.list v.peerList⟩, v)

/-- Peers one after the other; returns the new ones. -/
def updateAll (v : View) : List (Id × SocketAddr) → List (Id × SocketAddr) × View
  | [] => ([], v)
  | (id, ip) :: peers =>
    let (added, v) := v.insertUpdate id ip
    let (updates, v) := updateAll v peers
    (if added then (id, ip) :: updates else updates, v)

/-- The responses, where `none` is one that is not a `VersionAck`. Also returns whether there
are enough of them, of whatever kind. -/
def updatePeers (v : View) (responses : List (Option VersionAck)) :
    (List (Id × SocketAddr) × Bool) × View :=
  let (updates, v) := v.updateAll (responses.reduceOption.flatMap fun ack =>
    (ack.id, ack.ip) :: ack.peerList)
  ((updates, decide (BOOTSTRAP_QUORUM ≤ responses.length)), v)

inductive Message where
  | init (peers : List (Id × SocketAddr))
  | version (order : Listing (Id × SocketAddr)) (id : Id) (ip : SocketAddr)
  | updatePeers (responses : List (Option VersionAck))
  | sampleK (orders : Nat → Listing Id) (k : Nat)

/-- `none` if the sampling does not end. -/
def step (v : View) : Message → Option View
  | .init peers => some (v.init peers)
  | .version order id ip => some (v.version order id ip).2
  | .updatePeers responses => some (v.updatePeers responses).2
  | .sampleK orders k => (v.sampleK orders k).map Prod.snd

end View
end Subzero
