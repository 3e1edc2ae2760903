import Mathlib.Algebra.BigOperators.Group.Finset.Basic
import Subzero.Graph.Mutations
import Subzero.Sleet.Fetch
import Subzero.Sleet.Steps

/-! A node that joins a network. It asks its bootstrap peers for their accepted frontiers,
fetches these with their ancestry, and asks again; it has joined when the frontiers bring
nothing new. The peers stand still meanwhile, each in some state that it has reached. -/
namespace Subzero

/-- `Handler<GetAcceptedFrontier>` -/
def Sleet.getAcceptedFrontier {H : Type} (s : Sleet H) : Response H :=
  .acceptedFrontier s.acceptedFrontier

/-- `Handler<FetchTx>` -/
def Sleet.fetchTx {H : Type} [DecidableEq H] (s : Sleet H) (hash : H) : Option (Tx H) :=
  (s.knownTxs.getTx hash).toOption

namespace Joining
variable {H : Type} [DecidableEq H] [Blake3 H]
variable {w w' : Actor H} {h : H} {order : HashOrder H} {n : Nat}

section Network
variable (network : Id × SocketAddr → Sleet H) (peers : List (Id × SocketAddr))

def answer (peer : Id × SocketAddr) (hash : H) : Option (Tx H) := (network peer).fetchTx hash

/-- The answers that the peers of the network give; nothing else reaches the node. -/
def Honest (w : Actor H) : HashOrder H × Event H → Prop
  | (_, .deliver _) => True
  | (_, .reply i response) => ∃ asked, w.requests[i]? = some (.fanout asked .getAcceptedFrontier) ∧
      response = some (.fanout (asked.map fun p => (network p).getAcceptedFrontier))
  | (_, .fetch i response) => ∃ f, w.fetches[i]? = some f ∧
      response = Fetch.replied (answer network) f
  | _ => False

def tips : Finset H := peers.toFinset.biUnion fun p => (network p).acceptedFrontier

/-- The first of the peers' copies of a transaction. -/
def copy (h : H) : Option (Tx H) := Fetch.found (answer network) peers h

/-- The ancestry of the frontiers, as far as the peers have it. -/
inductive Needed : H → Prop where
  | tip {h : H} : h ∈ tips network peers → Needed h
  | parent {h p : H} {tx : Tx H} : Needed h → copy network peers h = some tx → p ∈ tx.parents →
      Needed p

/-- The store holds what is needed and nothing else. -/
def Complete (db : TxDb H) : Prop :=
  ∀ h tx, db.lookup h = some tx ↔ Needed network peers h ∧ copy network peers h = some tx

def stored : Finset H := peers.toFinset.biUnion fun p => (network p).knownTxs.keys

def parentCount (h : H) : Nat := (copy network peers h).elim 0 fun tx => tx.parents.length

def asked (f : Fetch H) : Nat := f.asking.elim 0 fun a => a.2.length + 1

/-- A bound on the rounds that are left: every hash in the queue, and every parent that can
still get there, costs a round for each peer and two more. -/
def work (x : TxDb H × Fetch H) : Nat :=
  (x.2.queue.length + ∑ h ∈ stored network peers with h ∉ x.1, parentCount network peers h) *
    (peers.length + 2) + asked x.2

/-- The hash is stored, or will be looked at, or no peer has it. -/
def Handled (x : TxDb H × Fetch H) (h : H) : Prop :=
  h ∈ x.1 ∨ h ∈ Fetch.waiting x.2 ∨ copy network peers h = none

structure Progress (x : TxDb H × Fetch H) : Prop where
  sound : Fetch.Sound (answer network) peers x
  waiting : ∀ h ∈ Fetch.waiting x.2, Needed network peers h
  copies : ∀ h tx, x.1.lookup h = some tx →
    Needed network peers h ∧ copy network peers h = some tx
  tip : ∀ h ∈ tips network peers, Handled network peers x h
  parent : ∀ h tx, x.1.lookup h = some tx → ∀ p ∈ tx.parents, Handled network peers x p

end Network

section Loop
variable {network : Id × SocketAddr → Sleet H} {peers : List (Id × SocketAddr)}
  {x y : TxDb H × Fetch H}

omit [Blake3 H] in
theorem answer_eq (peer : Id × SocketAddr) (h : H) :
    answer network peer h = (network peer).knownTxs.lookup h := by
  unfold answer Sleet.fetchTx TxDb.getTx
  cases (network peer).knownTxs.lookup h <;> rfl

omit [Blake3 H] in
theorem copy_stored {tx : Tx H} (found : copy network peers h = some tx) :
    h ∈ stored network peers := by
  obtain ⟨peer, listed, given⟩ := List.exists_of_findSome?_eq_some found
  rw [answer_eq] at given
  exact Finset.mem_biUnion.mpr
    ⟨peer, List.mem_toFinset.mpr listed, HashMap.mem_keys_of_lookup given⟩

theorem copy_hash (keyed : ∀ p ∈ peers, (network p).Keyed) {tx : Tx H}
    (found : copy network peers h = some tx) : tx.hash = h := by
  obtain ⟨peer, listed, given⟩ := List.exists_of_findSome?_eq_some found
  rw [answer_eq] at given
  exact keyed peer listed h tx given

omit [Blake3 H] in
theorem copy_of_answer {peer : Id × SocketAddr} {rest : List (Id × SocketAddr)} {tx : Tx H}
    (first : Fetch.found (answer network) (peer :: rest) h = copy network peers h)
    (given : answer network peer h = some tx) : copy network peers h = some tx := by
  rw [← first, Fetch.found, List.findSome?_cons, given]

/-- A round of the loop handles no hash less than before. -/
theorem Handled.move (keyed : ∀ p ∈ peers, (network p).Keyed)
    (sound : Fetch.Sound (answer network) peers x) (move : Fetch.Move (answer network) x y)
    (handled : Handled network peers x h) : Handled network peers y h := by
  obtain ⟨same, absent, first⟩ := sound
  rcases handled with known | waits | nobody
  · cases move with
    | store => exact .inl (Finmap.mem_insert.mpr (.inr known))
    | skip => exact .inl known
    | ask => exact .inl known
    | giveUp => exact .inl known
    | pass => exact .inl known
  · cases move with
    | skip here =>
      rcases List.mem_cons.mp (Multiset.mem_coe.mp waits) with rfl | later
      · exact .inl here
      · exact .inr (.inl (Multiset.mem_coe.mpr later))
    | ask => exact .inr (.inl waits)
    | pass => exact .inr (.inl waits)
    | giveUp =>
      rcases List.mem_cons.mp (Multiset.mem_coe.mp waits) with rfl | later
      · exact .inr (.inr (first h [] rfl).symm)
      · exact .inr (.inl (Multiset.mem_coe.mpr later))
    | store given =>
      rcases List.mem_cons.mp (Multiset.mem_coe.mp waits) with rfl | later
      · have found := copy_of_answer (first h _ rfl) given
        exact .inl (Finmap.mem_insert.mpr (.inl (copy_hash keyed found).symm))
      · exact .inr (.inl (Multiset.mem_coe.mpr (List.mem_append_left _ later)))
  · exact .inr (.inr nobody)

theorem Progress.move (keyed : ∀ p ∈ peers, (network p).Keyed)
    (progress : Progress network peers x) (move : Fetch.Move (answer network) x y) :
    Progress network peers y := by
  have kept : ∀ {h}, Handled network peers x h → Handled network peers y h :=
    Handled.move keyed progress.sound move
  have same : y.1 = x.1 → (∀ h ∈ Fetch.waiting y.2, h ∈ Fetch.waiting x.2) →
      Progress network peers y := by
    intro db fewer
    refine ⟨progress.sound.move move, fun h waits => progress.waiting h (fewer h waits), ?_, ?_, ?_⟩
    · rw [db]
      exact progress.copies
    · exact fun h tip => kept (progress.tip h tip)
    · rw [db]
      exact fun h tx found p listed => kept (progress.parent h tx found p listed)
  cases move with
  | skip => exact same rfl fun h later => List.mem_cons_of_mem _ later
  | ask => exact same rfl fun h waits => waits
  | pass => exact same rfl fun h waits => waits
  | giveUp => exact same rfl fun h later => List.mem_cons_of_mem _ later
  | @store db _ rest peer h queue tx given =>
    have here : Needed network peers h := progress.waiting h List.mem_cons_self
    have found := copy_of_answer (progress.sound.first h _ rfl) given
    have right : tx.hash = h := copy_hash keyed found
    refine ⟨progress.sound.move (.store given), fun k waits => ?_, fun k tx' stored => ?_, ?_, ?_⟩
    · rcases List.mem_append.mp (Multiset.mem_coe.mp waits) with queued | parent
      · exact progress.waiting k (List.mem_cons_of_mem _ queued)
      · exact .parent here found parent
    · rcases HashMap.lookup_insert_some stored with ⟨rfl, rfl⟩ | ⟨_, old⟩
      · exact ⟨right ▸ here, right ▸ found⟩
      · exact progress.copies k tx' old
    · exact fun k tip => kept (progress.tip k tip)
    · intro k tx' stored p listed
      rcases HashMap.lookup_insert_some stored with ⟨_, rfl⟩ | ⟨_, old⟩
      · exact .inr (.inl (Multiset.mem_coe.mpr (List.mem_append_right _ listed)))
      · exact kept (progress.parent k tx' old p listed)

/-- Every round costs some of the work. -/
theorem Progress.falls (keyed : ∀ p ∈ peers, (network p).Keyed)
    (progress : Progress network peers x) (move : Fetch.Move (answer network) x y) :
    work network peers y < work network peers x := by
  obtain ⟨same, absent, first⟩ := progress.sound
  cases move with
  | skip =>
    simp only [work, asked, List.length_cons, Option.elim_none, Nat.add_mul]
    omega
  | ask =>
    simp only at same
    subst same
    simp only [work, asked, List.length_cons, Option.elim_none, Option.elim_some, Nat.add_mul]
    omega
  | giveUp => simp [work, asked]
  | pass => simp [work, asked]
  | @store db _ rest peer h queue tx given =>
    have found := copy_of_answer (first h _ rfl) given
    obtain rfl : tx.hash = h := copy_hash keyed found
    -- the parents that enter the queue are those that could still get there through this hash
    have split : ∑ k ∈ stored network peers with k ∉ db, parentCount network peers k =
        tx.parents.length + ∑ k ∈ stored network peers with k ∉ db.insertTx tx,
          parentCount network peers k := by
      have member : tx.hash ∈ (stored network peers).filter fun k => k ∉ db :=
        Finset.mem_filter.mpr ⟨copy_stored found, absent _ _ rfl⟩
      have count : parentCount network peers tx.hash = tx.parents.length := by
        simp [parentCount, found]
      rw [← Finset.add_sum_erase _ _ member, count]
      congr 2
      ext k
      simp only [Finset.mem_erase, Finset.mem_filter, TxDb.insertTx, Finmap.mem_insert, not_or]
      tauto
    simp only [work, asked, Option.elim_none, Option.elim_some, List.length_append, split]
    have regroup : queue.length + tx.parents.length + (∑ k ∈ stored network peers with
        k ∉ db.insertTx tx, parentCount network peers k) = queue.length + (tx.parents.length +
          ∑ k ∈ stored network peers with k ∉ db.insertTx tx, parentCount network peers k) :=
      Nat.add_assoc ..
    rw [regroup]
    omega

omit [Blake3 H] in
/-- Once nothing waits, the store is complete. -/
theorem Progress.complete (progress : Progress network peers x) (ended : Fetch.waiting x.2 = 0) :
    Complete network peers x.1 := by
  have known : ∀ {h tx}, Handled network peers x h → copy network peers h = some tx →
      x.1.lookup h = some tx := by
    intro h tx handled found
    rcases handled with known | waits | nobody
    · obtain ⟨tx', here⟩ := Finmap.mem_iff.mp known
      rw [here, ← found, (progress.copies h tx' here).2]
    · rw [ended] at waits
      cases Multiset.notMem_zero h waits
    · rw [nobody] at found
      cases found
  refine fun h tx => ⟨progress.copies h tx, ?_⟩
  rintro ⟨needed, found⟩
  induction needed generalizing tx with
  | tip tip => exact known (progress.tip _ tip) found
  | parent _ copied listed ih => exact known (progress.parent _ _ (ih _ copied) _ listed) found

end Loop

section Stages
variable (network : Id × SocketAddr → Sleet H) (peers : List (Id × SocketAddr))

structure Fresh (s : Sleet H) : Prop where
  asked : s.bootstrapPeers = peers
  frontier : s.acceptedFrontier = ∅
  old : s.oldFrontier = ∅
  dag : s.dag = .new
  txs : s.knownTxs = ∅

structure Filled (s : Sleet H) : Prop where
  asked : s.bootstrapPeers = peers
  frontier : s.acceptedFrontier = tips network peers
  old : s.oldFrontier = tips network peers

/-- What is in flight: messages to the node itself, requests and fetch tasks. -/
structure Flight (w : Actor H) (mailbox : List (Message H)) (requests : List (ClientRequest H))
    (fetches : List (Fetch H)) : Prop where
  mailbox : w.mailbox = mailbox
  requests : w.requests = requests
  fetches : w.fetches = fetches

/-- The frontiers were compared and had nothing new. -/
structure Joined (w : Actor H) : Prop where
  flight : Flight w [] [] []
  bootstrapped : w.sleet.bootstrapped = true
  frontier : w.sleet.acceptedFrontier = tips network peers
  complete : Complete network peers w.sleet.knownTxs

/-- A bound on the rounds of the loop. -/
def rounds : Nat :=
  ((tips network peers).card + ∑ h ∈ stored network peers, parentCount network peers h) *
    (peers.length + 2)

/-- Where the node is, with a bound on the steps that are left. -/
inductive Stage (w : Actor H) : Nat → Prop where
  | starts : Flight w [.bootstrap] [] [] → Fresh peers w.sleet →
      Stage w (rounds network peers + 6)
  | asks : Flight w [] [.fanout peers .getAcceptedFrontier] [] → Fresh peers w.sleet →
      Stage w (rounds network peers + 5)
  | finds : Flight w [.fetchWithAncestry (tips network peers)] [] [] →
      Filled network peers w.sleet → w.sleet.knownTxs = ∅ → Stage w (rounds network peers + 4)
  | fetches {f : Fetch H} : Flight w [] [] [f] → Filled network peers w.sleet →
      Progress network peers (w.sleet.knownTxs, f) →
      Stage w (work network peers (w.sleet.knownTxs, f) + 3)
  | restarts : Flight w [.bootstrap] [] [] → Filled network peers w.sleet →
      Complete network peers w.sleet.knownTxs → Stage w 2
  | asksAgain : Flight w [] [.fanout peers .getAcceptedFrontier] [] →
      Filled network peers w.sleet → Complete network peers w.sleet.knownTxs → Stage w 1
  | joined : Joined network peers w → Stage w 0

end Stages

section Steps
variable {network : Id × SocketAddr → Sleet H} {peers : List (Id × SocketAddr)}

omit [Blake3 H] in
theorem joinFrontiers_answers (asked : List (Id × SocketAddr)) (joined : Finset H) :
    Sleet.joinFrontiers (asked.map fun p => (network p).getAcceptedFrontier) joined =
      some (joined ∪ tips network asked) := by
  induction asked generalizing joined with
  | nil => simp [Sleet.joinFrontiers, tips]
  | cons p asked ih =>
    rw [List.map_cons, Sleet.getAcceptedFrontier, Sleet.joinFrontiers, ih]
    simp [tips, Finset.biUnion_insert, Finset.union_assoc]

omit [Blake3 H] in
/-- New vertices without parents all go in. -/
theorem insertAll_ok {hashes : List H} (nodup : hashes.Nodup) {d : DAG H}
    (fresh : ∀ h ∈ hashes, h ∉ d.g ∧ d.chits.lookup h = none) :
    ∃ d', Outcome.forEach (fun tx (d : DAG H) =>
      (d.insertVx tx []).bind fun _ d => d.setChit tx 1) hashes d = .ok () d' := by
  induction hashes generalizing d with
  | nil => exact ⟨d, rfl⟩
  | cons h hashes ih =>
    obtain ⟨absent, unchitted⟩ := fresh h List.mem_cons_self
    obtain ⟨others, nodup⟩ := List.nodup_cons.mp nodup
    have goes : ∃ d₁, d.insertVx h [] = .ok () d₁ :=
      DAG.insertVx_succeeds (by simp) absent (by simp [unchitted])
    obtain ⟨d₁, inserted⟩ := goes
    have made := DAG.insertVx_inserted inserted
    have chit : d₁.setChit h 1 = .ok () { d₁ with chits := d₁.chits.insert h 1 } :=
      DAG.setChit_ok.mpr ⟨by simp [made.chits], rfl⟩
    have later : ∀ k ∈ hashes, k ∉ d₁.g ∧ (d₁.chits.insert h 1).lookup k = none := by
      intro k listed
      have other : k ≠ h := fun same => others (same ▸ listed)
      obtain ⟨away, none⟩ := fresh k (List.mem_cons_of_mem h listed)
      refine ⟨?_, ?_⟩
      · rw [made.g, Finmap.mem_insert, not_or]
        exact ⟨other, away⟩
      · simpa [made.chits, HashMap.lookup_insert_ite, other] using none
    obtain ⟨d', rest⟩ := ih nodup (d := { d₁ with chits := d₁.chits.insert h 1 }) later
    exact ⟨d', by simp only [Outcome.forEach, inserted, Outcome.bind_ok, chit, rest]⟩

omit [Blake3 H] in
theorem bootstrap_fresh (network : Id × SocketAddr → Sleet H) (order : HashOrder H) {s : Sleet H}
    (fresh : Fresh peers s) :
    ∃ d, s.bootstrap order (peers.map fun p => (network p).getAcceptedFrontier) =
      if tips network peers = ∅ then
        some (none, { s with acceptedFrontier := ∅, bootstrapped := true })
      else some (some (tips network peers), { s with
        acceptedFrontier := tips network peers, oldFrontier := tips network peers, dag := d }) := by
  obtain ⟨d, inserted⟩ := insertAll_ok (order.hashes.nodup (tips network peers)) (d := s.dag)
    fun h _ => by simp [fresh.dag, DAG.new, Finmap.notMem_empty]
  refine ⟨d, ?_⟩
  simp only [Sleet.bootstrap, joinFrontiers_answers, fresh.frontier, fresh.old, Finset.empty_union,
    Finset.sdiff_empty, inserted]
  by_cases empty : tips network peers = ∅
  · simp [empty]
  · simp [empty]

omit [Blake3 H] in
theorem bootstrap_filled (order : HashOrder H) {s : Sleet H} (filled : Filled network peers s) :
    s.bootstrap order (peers.map fun p => (network p).getAcceptedFrontier) =
      some (none, { s with bootstrapped := true }) := by
  obtain ⟨_, frontier, old⟩ := filled
  simp [Sleet.bootstrap, joinFrontiers_answers, frontier, old]

/-- What an honest event is. -/
inductive Taken (network : Id × SocketAddr → Sleet H) (order : HashOrder H) (w w' : Actor H) :
    Prop where
  | delivers {i : Nat} {m : Message H} : w.mailbox[i]? = some m →
      { w with mailbox := w.mailbox.eraseIdx i }.handle order m = some w' →
      Taken network order w w'
  | replies {i : Nat} {asked : List (Id × SocketAddr)} :
      w.requests[i]? = some (.fanout asked .getAcceptedFrontier) →
      { w with requests := w.requests.eraseIdx i }.onBootstrapReply order
        (some (.fanout (asked.map fun p => (network p).getAcceptedFrontier))) = some w' →
      Taken network order w w'
  | fetches {i : Nat} {f : Fetch H} : w.fetches[i]? = some f →
      w.onFetch i (Fetch.replied (answer network) f) = some w' → Taken network order w w'

theorem honest_taken {e : Event H} (honest : Honest network w (order, e))
    (taken : w.step (order, e) = some w') : Taken network order w w' := by
  cases e with
  | deliver i =>
    simp only [Actor.step] at taken
    split at taken
    · cases taken
    · rename_i m delivered
      exact .delivers delivered taken
  | reply i response =>
    obtain ⟨asked, here, rfl⟩ := honest
    simp only [Actor.step, here] at taken
    exact .replies here taken
  | fetch i response =>
    obtain ⟨f, here, rfl⟩ := honest
    exact .fetches here taken
  | liveCommittee => cases honest
  | generateTx => cases honest
  | queryTx => cases honest
  | timeout => cases honest

omit [Blake3 H] in
/-- The loop starts with the frontiers in the queue. -/
theorem Progress.start (order : HashOrder H) : Progress network peers
    ((∅ : TxDb H), ⟨peers, order.hashes.list (tips network peers), none⟩) where
  sound := ⟨rfl, by simp, by simp⟩
  waiting h waits := .tip ((order.hashes.mem _ h).mp waits)
  copies h tx found := by simp at found
  tip h tip := .inr (.inl ((order.hashes.mem _ h).mpr tip))
  parent h tx found := by simp at found

omit [Blake3 H] in
theorem work_start (network : Id × SocketAddr → Sleet H) (peers : List (Id × SocketAddr))
    (order : HashOrder H) : work network peers
    ((∅ : TxDb H), ⟨peers, order.hashes.list (tips network peers), none⟩) =
      rounds network peers := by
  simp [work, rounds, asked, Listing.length_list, Finmap.notMem_empty]

omit [Blake3 H] in
theorem Needed.tips_ne_empty (needed : Needed network peers h) : tips network peers ≠ ∅ := by
  induction needed with
  | tip tip => exact Finset.ne_empty_of_mem tip
  | parent _ _ _ ih => exact ih

theorem Stage.fetch (keyed : ∀ p ∈ peers, (network p).Keyed) {f : Fetch H}
    (flight : Flight w [] [] [f]) (filled : Filled network peers w.sleet)
    (progress : Progress network peers (w.sleet.knownTxs, f))
    (done : w.onFetch 0 (Fetch.replied (answer network) f) = some w') :
    ∃ m < work network peers (w.sleet.knownTxs, f) + 3, Stage network peers w' m := by
  have task : w.fetches[0]? = some f := by simp [flight.fetches]
  cases round : Fetch.round (answer network) (w.sleet.knownTxs, f) () with
  | none =>
    have ended : Actor.fetchRound w.sleet.knownTxs f (Fetch.replied (answer network) f) = none :=
      round
    simp only [Actor.onFetch, task, ended] at done
    cases done
    refine ⟨2, by omega, .restarts ⟨?_, flight.requests, ?_⟩ filled ?_⟩
    · simp [Actor.notify, flight.mailbox]
    · simp [Actor.notify, flight.fetches]
    · exact progress.complete (Fetch.round_none round)
  | some y =>
    have moves := Fetch.round_move round
    obtain ⟨db, f'⟩ := y
    have goes : Actor.fetchRound w.sleet.knownTxs f (Fetch.replied (answer network) f) =
      some (db, f') := round
    simp only [Actor.onFetch, task, goes] at done
    cases done
    refine ⟨_, Nat.add_lt_add_right (progress.falls keyed moves) 3,
      .fetches (f := f') ⟨flight.mailbox, flight.requests, ?_⟩ ⟨filled.asked, filled.frontier,
        filled.old⟩ (progress.move keyed moves)⟩
    simp [flight.fetches]

theorem only_one {α : Type} {a b : α} {i : Nat} (found : [a][i]? = some b) : i = 0 ∧ a = b := by
  rw [List.getElem?_singleton] at found
  split at found
  · exact ⟨by assumption, Option.some.inj found⟩
  · cases found

theorem Stage.deliver {n i : Nat} {m : Message H} (stage : Stage network peers w n)
    (delivered : w.mailbox[i]? = some m)
    (done : { w with mailbox := w.mailbox.eraseIdx i }.handle order m = some w') :
    ∃ m < n, Stage network peers w' m := by
  cases stage with
  | starts flight fresh =>
    rw [flight.mailbox] at delivered
    obtain ⟨rfl, rfl⟩ := only_one delivered
    cases done
    refine ⟨_, Nat.lt_succ_self _, .asks ⟨?_, ?_, flight.fetches⟩ fresh⟩
    · simp [Actor.send, flight.mailbox]
    · simp [Actor.send, flight.requests, fresh.asked]
  | finds flight filled txs =>
    rw [flight.mailbox] at delivered
    obtain ⟨rfl, rfl⟩ := only_one delivered
    cases done
    have start : Progress network peers (w.sleet.knownTxs,
        ⟨w.sleet.bootstrapPeers, order.hashes.list (tips network peers), none⟩) := by
      rw [txs, filled.asked]
      exact .start order
    have cost := work_start network peers order
    refine ⟨_, ?_, .fetches ⟨?_, flight.requests, ?_⟩ filled start⟩
    · rw [txs, filled.asked, cost]
      omega
    · simp [flight.mailbox]
    · simp [flight.fetches]
  | restarts flight filled complete =>
    rw [flight.mailbox] at delivered
    obtain ⟨rfl, rfl⟩ := only_one delivered
    cases done
    refine ⟨1, by omega, .asksAgain ⟨?_, ?_, flight.fetches⟩ filled complete⟩
    · simp [Actor.send, flight.mailbox]
    · simp [Actor.send, flight.requests, filled.asked]
  | asks flight => simp [flight.mailbox] at delivered
  | fetches flight => simp [flight.mailbox] at delivered
  | asksAgain flight => simp [flight.mailbox] at delivered
  | joined joined => simp [joined.flight.mailbox] at delivered

omit [Blake3 H] in
theorem Stage.reply {n i : Nat} {asked : List (Id × SocketAddr)} (stage : Stage network peers w n)
    (request : w.requests[i]? = some (.fanout asked .getAcceptedFrontier))
    (done : { w with requests := w.requests.eraseIdx i }.onBootstrapReply order (some (.fanout
      (asked.map fun p => (network p).getAcceptedFrontier))) = some w') :
    ∃ m < n, Stage network peers w' m := by
  cases stage with
  | asks flight fresh =>
    rw [flight.requests] at request
    obtain ⟨rfl, same⟩ := only_one request
    cases same
    obtain ⟨d, replied⟩ := bootstrap_fresh network order fresh
    simp only [Actor.onBootstrapReply, replied] at done
    split at done
    · rename_i empty
      cases done
      refine ⟨0, by omega, .joined ⟨⟨flight.mailbox, ?_, flight.fetches⟩, rfl, empty.symm, ?_⟩⟩
      · simp [flight.requests]
      · intro h tx
        have none : w.sleet.knownTxs.lookup h = none := by simp [fresh.txs]
        simp only [none, reduceCtorEq, false_iff, not_and]
        exact fun needed => absurd empty needed.tips_ne_empty
    · cases done
      refine ⟨_, Nat.lt_succ_self _, .finds ⟨?_, ?_, flight.fetches⟩ ⟨fresh.asked, rfl, rfl⟩
        fresh.txs⟩
      · simp [Actor.notify, flight.mailbox]
      · simp [Actor.notify, flight.requests]
  | asksAgain flight filled complete =>
    rw [flight.requests] at request
    obtain ⟨rfl, same⟩ := only_one request
    cases same
    simp only [Actor.onBootstrapReply, bootstrap_filled order filled] at done
    cases done
    refine ⟨0, by omega, .joined ⟨⟨flight.mailbox, ?_, flight.fetches⟩, rfl, filled.frontier,
      complete⟩⟩
    simp [flight.requests]
  | starts flight => simp [flight.requests] at request
  | finds flight => simp [flight.requests] at request
  | fetches flight => simp [flight.requests] at request
  | restarts flight => simp [flight.requests] at request
  | joined joined => simp [joined.flight.requests] at request

/-- Every honest step brings the node closer to its end. -/
theorem Stage.step (keyed : ∀ p ∈ peers, (network p).Keyed) (stage : Stage network peers w n)
    (taken : Taken network order w w') : ∃ m < n, Stage network peers w' m := by
  cases taken with
  | delivers delivered done => exact stage.deliver delivered done
  | replies request done => exact stage.reply request done
  | fetches task done =>
    cases stage with
    | fetches flight filled progress =>
      rw [flight.fetches] at task
      obtain ⟨rfl, rfl⟩ := only_one task
      exact Stage.fetch keyed flight filled progress done
    | starts flight => simp [flight.fetches] at task
    | asks flight => simp [flight.fetches] at task
    | finds flight => simp [flight.fetches] at task
    | restarts flight => simp [flight.fetches] at task
    | asksAgain flight => simp [flight.fetches] at task
    | joined joined => simp [joined.flight.fetches] at task

/-- Unless the node has joined there is an answer for it to go on with. -/
theorem Stage.goes_on (order : HashOrder H) (stage : Stage network peers w n)
    (unjoined : ¬ Joined network peers w) :
    ∃ e next, Honest network w (order, e) ∧ w.step (order, e) = some next := by
  have asks : w.requests = [.fanout peers .getAcceptedFrontier] →
      (∃ r, w.sleet.bootstrap order (peers.map fun p => (network p).getAcceptedFrontier) = some r) →
      ∃ e next, Honest network w (order, e) ∧ w.step (order, e) = some next := by
    rintro requests ⟨r, replied⟩
    have asked : w.requests[0]? = some (.fanout peers .getAcceptedFrontier) := by simp [requests]
    have taken : ∃ next, w.step (order, .reply 0 (some (.fanout (peers.map fun p =>
        (network p).getAcceptedFrontier)))) = some next := by
      simp only [Actor.step, asked, Actor.onReply, Actor.onBootstrapReply, replied]
      exact ⟨_, rfl⟩
    obtain ⟨next, taken⟩ := taken
    refine ⟨_, next, ?_, taken⟩
    exact ⟨peers, asked, rfl⟩
  cases stage with
  | starts flight => exact ⟨.deliver 0, _, trivial, by simp [Actor.step, flight.mailbox]; rfl⟩
  | finds flight => exact ⟨.deliver 0, _, trivial, by simp [Actor.step, flight.mailbox]; rfl⟩
  | restarts flight => exact ⟨.deliver 0, _, trivial, by simp [Actor.step, flight.mailbox]; rfl⟩
  | asks flight fresh =>
    obtain ⟨d, replied⟩ := bootstrap_fresh network order fresh
    refine asks flight.requests ?_
    rw [replied]
    split
    · exact ⟨_, rfl⟩
    · exact ⟨_, rfl⟩
  | asksAgain flight filled => exact asks flight.requests ⟨_, bootstrap_filled order filled⟩
  | @fetches f flight =>
    have task : w.fetches[0]? = some f := by simp [flight.fetches]
    refine ⟨.fetch 0 (Fetch.replied (answer network) f), ?_⟩
    simp only [Actor.step, Actor.onFetch, task]
    split
    · exact ⟨_, ⟨f, task, rfl⟩, rfl⟩
    · exact ⟨_, ⟨f, task, rfl⟩, rfl⟩
  | joined joined => exact absurd joined unjoined

theorem Joined.ends (joined : Joined network peers w) (order : HashOrder H) {e : Event H}
    {next : Actor H} (honest : Honest network w (order, e)) : w.step (order, e) ≠ some next := by
  intro taken
  obtain ⟨mailbox, requests, fetches⟩ := joined.flight
  cases honest_taken honest taken with
  | delivers delivered => simp [mailbox] at delivered
  | replies request => simp [requests] at request
  | fetches task => simp [fetches] at task

/-- A node that joins peers which stand still has to go on until it has joined, and it gets
there: the steps are bounded, and the store then holds the ancestry of the peers' frontiers,
as the peers have it, and nothing else. -/
theorem joining_completes (order : HashOrder H) (id : Id) (ip : SocketAddr)
    (peers : List (Id × SocketAddr)) (network : Id × SocketAddr → Actor H)
    (reached : ∀ p ∈ peers, ∃ order others steps,
      Run Actor.step (.started (.new order p.1 p.2 others)) steps (network p))
    {steps : List (Actor H × HashOrder H × Event H)} {last : Actor H}
    (run : Run Actor.step (.started (.new order id ip peers)) steps last)
    (honest : Meets (Honest fun p => (network p).sleet) steps) :
    steps.length ≤ rounds (fun p => (network p).sleet) peers + 6 ∧
      (Joined (fun p => (network p).sleet) peers last ↔
        ¬ ∃ e next, Honest (fun p => (network p).sleet) last e ∧ last.step e = some next) := by
  have keyed : ∀ p ∈ peers, (network p).sleet.Keyed := by
    intro p listed
    obtain ⟨_, _, _, reaches⟩ := reached p listed
    exact (Actor.Sound.run reaches).keyed
  have staged : ∃ n, Stage (fun p => (network p).sleet) peers last n ∧
      steps.length + n ≤ rounds (fun p => (network p).sleet) peers + 6 := by
    induction run with
    | start => exact ⟨_, .starts ⟨rfl, rfl, rfl⟩ ⟨rfl, rfl, rfl, rfl, rfl⟩, by simp⟩
    | @next steps u v e _ taken ih =>
      obtain ⟨n, stage, bound⟩ := ih honest.init
      obtain ⟨m, less, stage⟩ := stage.step keyed (honest_taken honest.last taken)
      refine ⟨m, stage, ?_⟩
      rw [List.length_append, List.length_singleton]
      omega
  obtain ⟨n, stage, bound⟩ := staged
  refine ⟨by omega, ?_, ?_⟩
  · rintro joined ⟨e, next, given, taken⟩
    exact joined.ends e.1 given taken
  · intro stuck
    by_contra unjoined
    obtain ⟨e, next, given, taken⟩ := stage.goes_on order unjoined
    exact stuck ⟨(order, e), next, given, taken⟩

end Steps

section Sample
open Actor Fetch

/-- A node that bootstrapped with the second transaction as the frontier. -/
def seed : List (Event Digest) :=
  [.deliver 0, .reply 0 (some (.fanout [.acceptedFrontier {second.hash}])), .deliver 0,
    .fetch 0 none, .fetch 0 (some (.oneshot (some (.fetchedTx (some second))))),
    .fetch 0 none, .fetch 0 (some (.oneshot (some (.fetchedTx (some Fetch.first)))))]

def seeding : Option (List (Actor Digest × HashOrder Digest × Event Digest) × Actor Digest) :=
  exec Actor.step (.started (.new ascendingOrder peer "peer" [(node, "node")]))
    (seed.map fun e => (ascendingOrder, e))

def seeded (_ : Id × SocketAddr) : Actor Digest := (seeding.map Prod.snd).getD Actor.sample

theorem seeded_reached : ∃ steps,
    Run Actor.step (.started (.new ascendingOrder peer "peer" [(node, "node")])) steps
      (seeded (peer, "peer")) := by
  have done : seeding.isSome = true := by decide +kernel
  obtain ⟨⟨steps, last⟩, taken⟩ := Option.isSome_iff_exists.mp done
  have same : seeded (peer, "peer") = last := by simp [seeded, taken]
  exact ⟨steps, same ▸ exec_run taken⟩

def joiner : Actor Digest := .started (.new ascendingOrder node "node" onlyPeer)

/-- What the peer or the node itself does next: a message is handled, then the frontiers are
answered, then what is asked for. -/
def nextEvent (w : Actor Digest) : Option (Event Digest) :=
  match w.mailbox, w.requests, w.fetches with
  | _ :: _, _, _ => some (.deliver 0)
  | [], .fanout asked .getAcceptedFrontier :: _, _ =>
    some (.reply 0 (some (.fanout (asked.map fun p => (seeded p).sleet.getAcceptedFrontier))))
  | [], [], f :: _ => some (.fetch 0 (Fetch.replied (answer fun p => (seeded p).sleet) f))
  | _, _, _ => none

def joins : Nat → Actor Digest →
    List (Actor Digest × HashOrder Digest × Event Digest) × Actor Digest
  | 0, w => ([], w)
  | n + 1, w =>
    match (nextEvent w).bind fun e => (w.step (ascendingOrder, e)).map (Prod.mk e) with
    | none => ([], w)
    | some (e, v) => ((w, ascendingOrder, e) :: (joins n v).1, (joins n v).2)

theorem nextEvent_honest {w : Actor Digest} {e : Event Digest} (next : nextEvent w = some e)
    (order : HashOrder Digest) : Honest (fun p => (seeded p).sleet) w (order, e) := by
  unfold nextEvent at next
  split at next
  · cases next
    trivial
  · rename_i asked _ _ request
    cases next
    exact ⟨asked, by rw [request]; rfl, rfl⟩
  · rename_i f _ _ _ task
    cases next
    exact ⟨f, by rw [task]; rfl, rfl⟩
  · cases next

theorem joins_honest (n : Nat) (w : Actor Digest) :
    Run Actor.step w (joins n w).1 (joins n w).2 ∧
      Meets (Honest fun p => (seeded p).sleet) (joins n w).1 := by
  induction n generalizing w with
  | zero => exact ⟨.start, List.forall_mem_nil _⟩
  | succ n ih =>
    rw [joins]
    split
    · exact ⟨.start, List.forall_mem_nil _⟩
    · rename_i e v taken
      obtain ⟨e, next, taken⟩ := Option.bind_eq_some_iff.mp taken
      obtain ⟨v, taken, same⟩ := Option.map_eq_some_iff.mp taken
      cases same
      exact ⟨.cons taken (ih v).1, List.forall_mem_cons.mpr ⟨nextEvent_honest next _, (ih v).2⟩⟩

/-- A node joins a peer with two transactions, and then it has both of them. -/
theorem joining_completes_seeded :
    tips (fun p => (seeded p).sleet) onlyPeer = {second.hash} ∧
    ∃ (steps : List (Actor Digest × HashOrder Digest × Event Digest)) (last : Actor Digest),
      Run Actor.step joiner steps last ∧ steps.length = 10 ∧
      steps.length ≤ rounds (fun p => (seeded p).sleet) onlyPeer + 6 ∧
      Joined (fun p => (seeded p).sleet) onlyPeer last ∧
      last.sleet.knownTxs.keys = {second.hash, Fetch.first.hash} := by
  refine ⟨by decide +kernel, ?_⟩
  obtain ⟨run, honest⟩ := joins_honest 20 joiner
  have facts : (joins 20 joiner).1.length = 10 ∧ (joins 20 joiner).2.mailbox.length = 0 ∧
      (joins 20 joiner).2.requests.length = 0 ∧ (joins 20 joiner).2.fetches.length = 0 ∧
      (joins 20 joiner).2.sleet.knownTxs.keys = {second.hash, Fetch.first.hash} := by
    decide +kernel
  obtain ⟨length, mailbox, requests, fetches, keys⟩ := facts
  have reached : ∀ p ∈ onlyPeer, ∃ order others steps,
      Run Actor.step (.started (.new order p.1 p.2 others)) steps (seeded p) := by
    intro p listed
    obtain rfl := List.mem_singleton.mp listed
    obtain ⟨steps, reaches⟩ := seeded_reached
    exact ⟨_, _, steps, reaches⟩
  obtain ⟨bound, joined⟩ := joining_completes ascendingOrder node "node" onlyPeer seeded reached
    run honest
  refine ⟨_, _, run, length, bound, joined.mpr ?_, keys⟩
  rintro ⟨e, next, given, taken⟩
  cases honest_taken given taken with
  | delivers delivered => simp [List.length_eq_zero_iff.mp mailbox] at delivered
  | replies request => simp [List.length_eq_zero_iff.mp requests] at request
  | fetches task => simp [List.length_eq_zero_iff.mp fetches] at task

end Sample

end Joining
end Subzero
