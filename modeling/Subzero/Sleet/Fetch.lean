import Subzero.Lib.Kahn
import Subzero.Sleet.Sample

/-! The loop that fetches transactions with their ancestry, for peers whose answers are a
function of the hash. A transaction is stored under its own hash, so that a hash that is
answered with another transaction stays unknown and can come back with the parents. -/
namespace Subzero.Fetch
variable {H : Type} [DecidableEq H] [Blake3 H]

section Rounds
variable (answer : Id × SocketAddr → H → Option (Tx H))

/-- The reply of the peer that is asked. -/
def replied (f : Fetch H) : Option (ClientResponse H) :=
  match f.asking with
  | some (hash, peer :: _) => some (.oneshot (some (.fetchedTx (answer peer hash))))
  | _ => none

/-- A round of the loop; `none` if it is over. -/
def round (x : TxDb H × Fetch H) (_ : Unit) : Option (TxDb H × Fetch H) :=
  Actor.fetchRound x.1 x.2 (replied answer x.2)

/-- The first answer that the peers have. -/
def found (peers : List (Id × SocketAddr)) (h : H) : Option (Tx H) :=
  peers.findSome? fun peer => answer peer h

/-- The hashes that can come up: those of the set that are not stored, and from them on the
parents of the answers. -/
inductive Reached (peers : List (Id × SocketAddr)) (db : TxDb H) (txs : Finset H) : H → Prop where
  | first {h : H} : h ∈ txs → h ∉ db → Reached peers db txs h
  | parent {h p : H} {tx : Tx H} : Reached peers db txs h → found answer peers h = some tx →
      p ∈ tx.parents → p ∉ db → Reached peers db txs p

/-- A hash that comes up is answered with another transaction, and a parent of that one is
fetched. -/
def Astray (peers : List (Id × SocketAddr)) (db : TxDb H) (txs : Finset H) (h parent : H) : Prop :=
  Reached answer peers db txs h ∧
    ∃ tx, found answer peers h = some tx ∧ tx.hash ≠ h ∧ parent ∈ tx.parents

inductive Move : TxDb H × Fetch H → TxDb H × Fetch H → Prop where
  | skip {db : TxDb H} {peers : List (Id × SocketAddr)} {h : H} {queue : List H} : h ∈ db →
      Move (db, ⟨peers, h :: queue, none⟩) (db, ⟨peers, queue, none⟩)
  | ask {db : TxDb H} {peers : List (Id × SocketAddr)} {h : H} {queue : List H} : h ∉ db →
      Move (db, ⟨peers, h :: queue, none⟩) (db, ⟨peers, queue, some (h, peers)⟩)
  | giveUp {db : TxDb H} {peers : List (Id × SocketAddr)} {h : H} {queue : List H} :
      Move (db, ⟨peers, queue, some (h, [])⟩) (db, ⟨peers, queue, none⟩)
  | pass {db : TxDb H} {peers rest : List (Id × SocketAddr)} {peer : Id × SocketAddr} {h : H}
      {queue : List H} : answer peer h = none →
      Move (db, ⟨peers, queue, some (h, peer :: rest)⟩) (db, ⟨peers, queue, some (h, rest)⟩)
  | store {db : TxDb H} {peers rest : List (Id × SocketAddr)} {peer : Id × SocketAddr} {h : H}
      {queue : List H} {tx : Tx H} : answer peer h = some tx →
      Move (db, ⟨peers, queue, some (h, peer :: rest)⟩)
        (db.insertTx tx, ⟨peers, queue ++ tx.parents, none⟩)

variable {answer}

theorem round_move {x y : TxDb H × Fetch H} (taken : round answer x () = some y) :
    Move answer x y := by
  obtain ⟨db, peers, queue, asking⟩ := x
  cases asking with
  | none =>
    cases queue with
    | nil => cases taken
    | cons h queue =>
      by_cases known : h ∈ db
      · simp [round, Actor.fetchRound, TxDb.isKnownTx, known] at taken
        exact taken ▸ .skip known
      · simp [round, Actor.fetchRound, TxDb.isKnownTx, known] at taken
        exact taken ▸ .ask known
  | some asking =>
    obtain ⟨h, rest⟩ := asking
    cases rest with
    | nil => cases taken; exact .giveUp
    | cons peer rest =>
      cases given : answer peer h with
      | none =>
        simp [round, Actor.fetchRound, replied, given] at taken
        exact taken ▸ .pass given
      | some tx =>
        simp [round, Actor.fetchRound, replied, given] at taken
        exact taken ▸ .store given

end Rounds

omit [DecidableEq H] [Blake3 H] in
theorem Reached.absent {answer : Id × SocketAddr → H → Option (Tx H)}
    {peers : List (Id × SocketAddr)} {db : TxDb H} {txs : Finset H} {h : H}
    (reached : Reached answer peers db txs h) : h ∉ db := by
  cases reached with
  | first _ absent => exact absent
  | parent _ _ _ absent => exact absent

/-- The hash that is asked for is unknown, and the peers left have the first answer if any
peer has. -/
structure Sound (answer : Id × SocketAddr → H → Option (Tx H)) (peers : List (Id × SocketAddr))
    (x : TxDb H × Fetch H) : Prop where
  same : x.2.peers = peers
  absent : ∀ h rest, x.2.asking = some (h, rest) → h ∉ x.1
  first : ∀ h rest, x.2.asking = some (h, rest) → found answer rest h = found answer peers h

/-- What is in the queue or asked for. -/
def waiting (f : Fetch H) : Multiset H :=
  match f.asking with
  | none => f.queue
  | some (h, _) => (h :: f.queue : List H)

def unasked (f : Fetch H) : Nat :=
  match f.asking with
  | none => f.peers.length + 1
  | some (_, rest) => rest.length

theorem round_none {answer : Id × SocketAddr → H → Option (Tx H)} {x : TxDb H × Fetch H}
    (ended : round answer x () = none) : waiting x.2 = 0 := by
  obtain ⟨db, peers, queue, asking⟩ := x
  cases asking with
  | none =>
    cases queue with
    | nil => rfl
    | cons h queue =>
      simp only [round, Actor.fetchRound] at ended
      split at ended <;> cases ended
  | some asking =>
    obtain ⟨h, rest⟩ := asking
    cases rest with
    | nil => cases ended
    | cons peer rest =>
      simp only [round, Actor.fetchRound] at ended
      split at ended <;> cases ended

/-- The hashes that can be stored and are not, what waits, and the peers left. -/
def rank (known : Finset H) (x : TxDb H × Fetch H) : Nat × Multiset H × Nat :=
  ((known.filter fun h => h ∉ x.1).card, waiting x.2, unasked x.2)

def Asks (f : Fetch H) (h : H) : Prop := ∃ peer rest, f.asking = some (h, peer :: rest)

def Requested (steps : List ((TxDb H × Fetch H) × Unit)) (h : H) : Prop :=
  ∃ x ∈ steps, Asks x.1.2 h

/-- The peer that is asked answers with a transaction, and this is stored. -/
def Stores (answer : Id × SocketAddr → H → Option (Tx H)) (x : TxDb H × Fetch H) (tx : Tx H) :
    Prop :=
  ∃ h peer rest, x.2.asking = some (h, peer :: rest) ∧ answer peer h = some tx

/-- Nothing is lost from the database, and what waits is stored or can come up. -/
structure Within (answer : Id × SocketAddr → H → Option (Tx H)) (peers : List (Id × SocketAddr))
    (db : TxDb H) (txs : Finset H) (x : TxDb H × Fetch H) : Prop where
  kept : ∀ h ∈ db, h ∈ x.1
  reached : ∀ h ∈ waiting x.2, h ∉ db → Reached answer peers db txs h

section Ends
variable {answer : Id × SocketAddr → H → Option (Tx H)} {peers : List (Id × SocketAddr)}
  {db : TxDb H} {txs : Finset H} {x y : TxDb H × Fetch H}

theorem Sound.move (sound : Sound answer peers x) (move : Move answer x y) :
    Sound answer peers y := by
  obtain ⟨same, absent, first⟩ := sound
  cases move with
  | skip known => exact ⟨same, by simp, by simp⟩
  | ask unknown =>
    refine ⟨same, ?_, ?_⟩
    · rintro h rest ⟨⟩
      exact unknown
    · rintro h rest ⟨⟩
      rw [← same]
  | giveUp => exact ⟨same, by simp, by simp⟩
  | pass given =>
    refine ⟨same, ?_, ?_⟩
    · rintro h rest ⟨⟩
      exact absent _ _ rfl
    · rintro h rest ⟨⟩
      rw [← first _ _ rfl, found, found, List.findSome?_cons, given]
  | store given => exact ⟨same, by simp, by simp⟩

omit [DecidableEq H] [Blake3 H] in
theorem Sound.answered {h : H} {peer : Id × SocketAddr} {rest : List (Id × SocketAddr)} {tx : Tx H}
    (sound : Sound answer peers x) (asked : x.2.asking = some (h, peer :: rest))
    (given : answer peer h = some tx) : found answer peers h = some tx := by
  rw [← sound.first h _ asked, found, List.findSome?_cons, given]

omit [DecidableEq H] [Blake3 H] in
/-- What is asked for can come up. -/
theorem Within.asked (within : Within answer peers db txs x) (sound : Sound answer peers x) {h : H}
    {rest : List (Id × SocketAddr)} (asked : x.2.asking = some (h, rest)) :
    Reached answer peers db txs h := by
  refine within.reached h ?_ fun stored => sound.absent h rest asked (within.kept h stored)
  simp [waiting, asked]

theorem Within.move (within : Within answer peers db txs x) (sound : Sound answer peers x)
    (move : Move answer x y) : Within answer peers db txs y := by
  have fewer : y.1 = x.1 → waiting y.2 ⊆ waiting x.2 → Within answer peers db txs y := by
    intro same less
    exact ⟨same ▸ within.kept, fun h member => within.reached h (less member)⟩
  cases move with
  | skip => exact fewer rfl (Multiset.subset_of_le (Multiset.le_cons_self _ _))
  | ask => exact fewer rfl (Multiset.Subset.refl _)
  | giveUp => exact fewer rfl (Multiset.subset_of_le (Multiset.le_cons_self _ _))
  | pass => exact fewer rfl (Multiset.Subset.refl _)
  | @store _ _ rest peer h queue tx given =>
    have come := within.asked sound rfl
    refine ⟨fun g stored => Finmap.mem_insert.mpr (.inr (within.kept g stored)),
      fun g member absent => ?_⟩
    rcases List.mem_append.mp (Multiset.mem_coe.mp member) with queued | parent
    · exact within.reached g (Multiset.mem_coe.mpr (List.mem_cons_of_mem h queued)) absent
    · exact .parent come (sound.answered rfl given) parent absent

omit [DecidableEq H] in
/-- A hash is replaced in the queue by parents of another transaction. -/
theorem replaces {h : H} (queue : List H) {parents : List H}
    (astray : ∀ p ∈ parents, Astray answer peers db txs h p) :
    Relation.CutExpand (fun p h => Astray answer peers db txs h p)
      ((queue ++ parents : List H) : Multiset H) (h :: queue : List H) := by
  refine ⟨(parents : Multiset H), h, fun p listed => astray p (by simpa using listed), ?_⟩
  rw [← Multiset.coe_add, ← Multiset.cons_coe, ← Multiset.singleton_add]
  ac_rfl

omit [Blake3 H] in
theorem unknown_le (known : Finset H) (db : TxDb H) (h : H) (tx : Tx H) :
    (known.filter fun k => k ∉ db.insert h tx).card ≤ (known.filter fun k => k ∉ db).card := by
  refine Finset.card_le_card fun k member => ?_
  obtain ⟨listed, absent⟩ := Finset.mem_filter.mp member
  exact Finset.mem_filter.mpr ⟨listed, fun old => absent (Finmap.mem_insert.mpr (.inr old))⟩

omit [Blake3 H] in
theorem unknown_lt {known : Finset H} {db : TxDb H} {h : H} (tx : Tx H) (listed : h ∈ known)
    (absent : h ∉ db) :
    (known.filter fun k => k ∉ db.insert h tx).card < (known.filter fun k => k ∉ db).card := by
  refine Finset.card_lt_card ((Finset.ssubset_iff_of_subset fun k member => ?_).mpr ⟨h, ?_, ?_⟩)
  · obtain ⟨listed, absent⟩ := Finset.mem_filter.mp member
    exact Finset.mem_filter.mpr ⟨listed, fun old => absent (Finmap.mem_insert.mpr (.inr old))⟩
  · exact Finset.mem_filter.mpr ⟨listed, absent⟩
  · exact fun member => (Finset.mem_filter.mp member).2 (Finmap.mem_insert.mpr (.inl rfl))

theorem Within.falls {known : Finset H} (within : Within answer peers db txs x)
    (sound : Sound answer peers x)
    (range : ∀ h tx, found answer peers h = some tx → tx.hash ∈ known)
    (move : Move answer x y) :
    Prod.Lex (· < ·)
      (Prod.Lex (Relation.CutExpand fun p h => Astray answer peers db txs h p) (· < ·))
      (rank known y) (rank known x) := by
  have drops : ∀ (h : H) (queue : List H), Relation.CutExpand
      (fun p h => Astray answer peers db txs h p) (queue : Multiset H) (h :: queue : List H) := by
    intro h queue
    have none : ∀ p ∈ ([] : List H), Astray answer peers db txs h p := by simp
    simpa using replaces queue none
  cases move with
  | skip => exact .right _ (.left _ _ (drops _ _))
  | ask => exact .right _ (.right _ (Nat.lt_succ_self _))
  | giveUp => exact .right _ (.left _ _ (drops _ _))
  | pass => exact .right _ (.right _ (Nat.lt_succ_self _))
  | @store now _ rest peer h queue tx given =>
    have answered : found answer peers h = some tx := sound.answered rfl given
    -- a right answer makes its hash known for good; a wrong one puts hashes in the queue that
    -- are below the one it takes out
    by_cases right : tx.hash = h
    · subst right
      exact .left _ _ (unknown_lt tx (range _ tx answered) (sound.absent _ _ rfl))
    · have lower := replaces queue fun p listed =>
        ⟨within.asked sound rfl, tx, answered, right, listed⟩
      rcases Nat.lt_or_eq_of_le (unknown_le known now tx.hash tx) with less | equal
      · exact .left _ _ less
      · exact Prod.lex_def.mpr (.inr ⟨equal, .left _ _ lower⟩)

omit [DecidableEq H] [Blake3 H] in
/-- A transaction that is stored is the first answer to the hash that is asked for. -/
theorem Sound.stores {tx : Tx H} (sound : Sound answer peers x) (stores : Stores answer x tx) :
    ∃ h, Asks x.2 h ∧ found answer peers h = some tx := by
  obtain ⟨h, peer, rest, asked, given⟩ := stores
  exact ⟨h, ⟨peer, rest, asked⟩, sound.answered asked given⟩

omit [DecidableEq H] [Blake3 H] in
theorem start_sound (answer : Id × SocketAddr → H → Option (Tx H)) (db : TxDb H)
    (peers : List (Id × SocketAddr)) (order : HashOrder H) (txs : Finset H) :
    Sound answer peers (db, ⟨peers, order.hashes.list txs, none⟩) ∧
      Within answer peers db txs (db, ⟨peers, order.hashes.list txs, none⟩) :=
  ⟨⟨rfl, by simp, by simp⟩, fun _ => id, fun h listed => .first ((order.hashes.mem _ h).mp listed)⟩

/-- All states of a run are sound, and what they wait for can come up. -/
theorem run_within {order : HashOrder H} {steps : List ((TxDb H × Fetch H) × Unit)}
    {last : TxDb H × Fetch H}
    (run : Run (round answer) (db, ⟨peers, order.hashes.list txs, none⟩) steps last) :
    ∀ u ∈ states steps last, Sound answer peers u ∧ Within answer peers db txs u := by
  have all := run.relates (fun _ _ => True) (fun _ _ => trivial)
    (fun u => Sound answer peers u ∧ Within answer peers db txs u) (fun _ _ => True)
    (start_sound answer db peers order txs) (fun _ => trivial) (fun _ _ _ _ _ => trivial)
    fun u _ v inside _ taken => ⟨⟨inside.1.move (round_move taken),
      inside.2.move inside.1 (round_move taken)⟩, trivial⟩
  exact fun u listed => (all.2 u listed).1

/-- The loop ends if no hash that comes up and is answered with another transaction comes up
again through answers of that kind. -/
theorem run_ends (order : HashOrder H)
    (finite : {tx | ∃ peer ∈ peers, ∃ h, answer peer h = some tx}.Finite)
    (acyclic : ∀ h, ¬ Relation.TransGen (Astray answer peers db txs) h h) :
    ∃ steps last, Run (round answer) (db, ⟨peers, order.hashes.list txs, none⟩) steps last ∧
      round answer last () = none := by
  have range : ∀ h tx, found answer peers h = some tx → tx ∈ finite.toFinset := by
    intro h tx answered
    obtain ⟨peer, listed, given⟩ := List.exists_of_findSome?_eq_some answered
    exact finite.mem_toFinset.mpr ⟨peer, listed, h, given⟩
  have founded : WellFounded fun p h => Astray answer peers db txs h p := by
    refine Kahn.wellFounded_of_acyclic
      (finite.toFinset.biUnion fun tx => tx.parents.toFinset).finite_toSet ?_ ?_
    · rintro p h ⟨_, tx, answered, _, listed⟩
      exact Finset.mem_biUnion.mpr ⟨tx, range h tx answered, List.mem_toFinset.mpr listed⟩
    · exact fun h cycle => acyclic h (Relation.transGen_swap.mp cycle)
  have lex := InvImage.wf (rank (finite.toFinset.image Tx.hash))
    (Nat.lt_wfRel.wf.prod_lex (founded.cutExpand.prod_lex Nat.lt_wfRel.wf))
  exact Run.ends lex (fun u => Sound answer peers u ∧ Within answer peers db txs u)
    (start_sound answer db peers order txs) fun u v inside taken =>
      ⟨⟨inside.1.move (round_move taken), inside.2.move inside.1 (round_move taken)⟩,
        inside.2.falls inside.1
          (fun h tx answered => Finset.mem_image_of_mem _ (range h tx answered)) (round_move taken)⟩

/-- If every hash that can come up is answered with its transaction, then the loop ends, and
everything is stored under a hash that was asked for. -/
theorem run_requests (order : HashOrder H)
    (finite : {tx | ∃ peer ∈ peers, ∃ h, answer peer h = some tx}.Finite)
    (right : ∀ h, Reached answer peers db txs h → ∀ tx, found answer peers h = some tx →
      tx.hash = h) :
    ∃ steps last, Run (round answer) (db, ⟨peers, order.hashes.list txs, none⟩) steps last ∧
      round answer last () = none ∧
      ∀ x ∈ steps, ∀ tx, Stores answer x.1 tx → Requested steps tx.hash := by
  have acyclic : ∀ h, ¬ Relation.TransGen (Astray answer peers db txs) h h := by
    intro h cycle
    obtain ⟨_, ⟨reached, tx, answered, wrong, _⟩, _⟩ := Relation.TransGen.head'_iff.mp cycle
    exact wrong (right h reached tx answered)
  obtain ⟨steps, last, run, ended⟩ := run_ends order finite acyclic
  refine ⟨steps, last, run, ended, fun x listed tx stores => ?_⟩
  obtain ⟨sound, within⟩ := run_within run x.1
    (List.mem_append_left _ (List.mem_map_of_mem listed))
  obtain ⟨h, asks, answered⟩ := sound.stores stores
  have asks' := asks
  obtain ⟨_, _, asked⟩ := asks'
  rw [right h (within.asked sound asked) tx answered]
  exact ⟨x, listed, asks⟩

/-- The only hash of the set waits or is asked for, and its first answer is still to come. -/
inductive Opens (answer : Id × SocketAddr → H → Option (Tx H)) (peers : List (Id × SocketAddr))
    (h : H) (tx : Tx H) : TxDb H × Fetch H → Prop where
  | waits {db : TxDb H} : h ∉ db → Opens answer peers h tx (db, ⟨peers, [h], none⟩)
  | asks {db : TxDb H} {rest : List (Id × SocketAddr)} : found answer rest h = some tx →
      Opens answer peers h tx (db, ⟨peers, [], some (h, rest)⟩)

theorem Opens.move {h : H} {tx : Tx H} (opens : Opens answer peers h tx x)
    (answered : found answer peers h = some tx) (move : Move answer x y) :
    Opens answer peers h tx y ∨ Stores answer x tx ∧ tx.hash ∈ y.1 := by
  cases opens with
  | waits absent =>
    cases move with
    | skip stored => exact absurd stored absent
    | ask => exact .inl (.asks answered)
  | asks left =>
    cases move with
    | giveUp => cases left
    | pass given =>
      rw [found, List.findSome?_cons, given] at left
      exact .inl (.asks left)
    | store given =>
      rw [found, List.findSome?_cons, given] at left
      cases left
      exact .inr ⟨⟨_, _, _, rfl, given⟩, Finmap.mem_insert.mpr (.inl rfl)⟩

/-- The first answer is stored under a hash that was not asked for before, and is not asked for
any more. -/
theorem first_answer {order : HashOrder H} {h : H} {tx : Tx H} (absent : h ∉ db)
    (answered : found answer peers h = some tx) (wrong : tx.hash ≠ h)
    {steps : List ((TxDb H × Fetch H) × Unit)} {last : TxDb H × Fetch H}
    (run : Run (round answer) (db, ⟨peers, order.hashes.list {h}, none⟩) steps last) :
    ¬ Requested steps tx.hash ∧ (Opens answer peers h tx last ∨
      (∃ x ∈ steps, Stores answer x.1 tx) ∧ tx.hash ∈ last.1) := by
  induction run with
  | start =>
    have single : order.hashes.list {h} = [h] := by
      refine List.perm_singleton.mp ((List.perm_ext_iff_of_nodup (order.hashes.nodup _)
        (List.nodup_singleton h)).mpr fun a => ?_)
      rw [order.hashes.mem, Finset.mem_singleton, List.mem_singleton]
    refine ⟨?_, .inl (single ▸ .waits absent)⟩
    rintro ⟨x, listed, _⟩
    cases listed
  | @next steps u v _ before taken ih =>
    obtain ⟨unasked, phase⟩ := ih
    have sound := (run_within before u (List.mem_append_right _ List.mem_cons_self)).1
    have move := round_move taken
    have listed : (u, ()) ∈ steps ++ [(u, ())] := List.mem_append_right _ List.mem_cons_self
    refine ⟨?_, ?_⟩
    · rintro ⟨x, member, asks⟩
      rcases List.mem_append.mp member with earlier | now
      · exact unasked ⟨x, earlier, asks⟩
      · cases List.mem_singleton.mp now
        obtain ⟨peer, rest, asked⟩ := asks
        rcases phase with opens | ⟨_, stored⟩
        · cases opens with
          | waits => cases asked
          | asks => cases asked; exact wrong rfl
        · exact sound.absent _ _ asked stored
    · rcases phase with opens | ⟨⟨x, member, stores⟩, stored⟩
      · refine (opens.move answered move).imp_right ?_
        rintro ⟨stores, stored⟩
        exact ⟨⟨_, listed, stores⟩, stored⟩
      · refine .inr ⟨⟨x, List.mem_append_left _ member, stores⟩, ?_⟩
        cases move with
        | store => exact Finmap.mem_insert.mpr (.inr stored)
        | _ => exact stored

end Ends

/-- For every initial set the loop ends and stores everything under a hash that was asked for,
exactly if the answer to a hash that is not stored is always its transaction. For one set it
is enough that this holds of the hashes that come up; and for the end of the loop, that no
hash comes up again through other answers. -/
theorem fetch_ends_iff (answer : Id × SocketAddr → H → Option (Tx H)) (db : TxDb H)
    (peers : List (Id × SocketAddr)) (order : HashOrder H)
    (finite : {tx | ∃ peer ∈ peers, ∃ h, answer peer h = some tx}.Finite) :
    ((∀ txs : Finset H, ∃ steps last,
        Run (round answer) (db, ⟨peers, order.hashes.list txs, none⟩) steps last ∧
        round answer last () = none ∧
        ∀ x ∈ steps, ∀ tx, Stores answer x.1 tx → Requested steps tx.hash) ↔
      ∀ h ∉ db, ∀ tx, found answer peers h = some tx → tx.hash = h) ∧
    ∀ txs : Finset H,
      ((∀ h, Reached answer peers db txs h → ∀ tx, found answer peers h = some tx →
          tx.hash = h) →
        ∃ steps last, Run (round answer) (db, ⟨peers, order.hashes.list txs, none⟩) steps last ∧
          round answer last () = none ∧
          ∀ x ∈ steps, ∀ tx, Stores answer x.1 tx → Requested steps tx.hash) ∧
      ((∀ h, ¬ Relation.TransGen (Astray answer peers db txs) h h) →
        ∃ steps last, Run (round answer) (db, ⟨peers, order.hashes.list txs, none⟩) steps last ∧
          round answer last () = none) := by
  refine ⟨⟨fun claim h absent tx answered => ?_, fun right txs => ?_⟩,
    fun txs => ⟨run_requests order finite, run_ends order finite⟩⟩
  · by_contra wrong
    obtain ⟨steps, last, run, ended, requested⟩ := claim {h}
    obtain ⟨unasked, opens | ⟨⟨x, listed, stores⟩, _⟩⟩ := first_answer absent answered wrong run
    · have nothing := round_none ended
      cases opens <;> simp [waiting] at nothing
    · exact unasked (requested x listed tx stores)
  · exact run_requests order finite fun h reached => right h reached.absent

section Samples
open Actor

def first : Tx Digest := transfer [] 0

def second : Tx Digest := transfer [first] 1

def onlyPeer : List (Id × SocketAddr) := [(peer, "peer")]

/-- The peer has the second transaction for every hash. -/
def confused (_ : Id × SocketAddr) (_ : Digest) : Option (Tx Digest) := some second

/-- The first transaction is waited for or asked for. -/
structure Again (x : TxDb Digest × Fetch Digest) : Prop where
  absent : first.hash ∉ x.1
  turn : x.2 = ⟨onlyPeer, [first.hash], none⟩ ∨ x.2 = ⟨onlyPeer, [], some (first.hash, onlyPeer)⟩

theorem Again.asks {x : TxDb Digest × Fetch Digest} (again : Again x) {h : Digest}
    (asks : Asks x.2 h) : h = first.hash := by
  obtain ⟨peer, rest, asked⟩ := asks
  rcases again.turn with turn | turn
  · rw [turn] at asked
    cases asked
  · rw [turn] at asked
    cases asked
    rfl

theorem Again.round {x : TxDb Digest × Fetch Digest} (again : Again x) :
    ∃ y, round confused x () = some y ∧ Again y ∧
      (x.1.lookup second.hash = some second → y.1.lookup second.hash = some second) := by
  have other : first.hash ≠ second.hash := by decide +kernel
  obtain ⟨db, f⟩ := x
  obtain ⟨absent, rfl | rfl⟩ := again
  · refine ⟨(db, ⟨onlyPeer, [], some (first.hash, onlyPeer)⟩), ?_, ⟨absent, .inr rfl⟩, id⟩
    simp only [Fetch.round, fetchRound, TxDb.isKnownTx, absent, decide_false]
    rfl
  · refine ⟨(db.insertTx second, ⟨onlyPeer, [first.hash], none⟩), rfl, ⟨?_, .inl rfl⟩, fun _ => ?_⟩
    · exact fun stored => (Finmap.mem_insert.mp stored).elim other absent
    · exact Finmap.lookup_insert _

/-- The parent of the second transaction is the first one, whose hash is asked for again and
again. The second one is stored under a hash that is never asked for. -/
theorem fetch_repeats :
    {tx | ∃ peer ∈ onlyPeer, ∃ h, confused peer h = some tx}.Finite ∧
    ∀ n, ∃ steps last, Run (round confused)
        (∅, ⟨onlyPeer, ascendingOrder.hashes.list {first.hash}, none⟩) steps last ∧
      steps.length = n + 2 ∧ last.1.lookup second.hash = some second ∧
      ¬ Requested steps second.hash := by
  refine ⟨(Set.finite_singleton second).subset ?_, fun n => ?_⟩
  · rintro tx ⟨_, _, _, given⟩
    exact (Option.some.inj given).symm
  have queue : ascendingOrder.hashes.list {first.hash} = [first.hash] := by decide +kernel
  have other : first.hash ≠ second.hash := by decide +kernel
  have start : Again (∅, ⟨onlyPeer, [first.hash], none⟩) := ⟨Finmap.notMem_empty, .inl rfl⟩
  have asked : Again (∅, ⟨onlyPeer, [], some (first.hash, onlyPeer)⟩) :=
    ⟨Finmap.notMem_empty, .inr rfl⟩
  have stored : Again ((∅ : TxDb Digest).insertTx second, ⟨onlyPeer, [first.hash], none⟩) :=
    ⟨fun member => (Finmap.mem_insert.mp member).elim other Finmap.notMem_empty, .inl rfl⟩
  obtain ⟨steps, last, run, length, all, _, found⟩ := Run.goes_on
    (fun x => Again x ∧ x.1.lookup second.hash = some second)
    ⟨stored, Finmap.lookup_insert _⟩ (fun u inside => by
      obtain ⟨v, taken, again, keeps⟩ := inside.1.round
      exact ⟨v, taken, again, keeps inside.2⟩) n
  rw [queue]
  refine ⟨_, last, .cons (e := ()) rfl (.cons (e := ()) rfl run), by simp [length], found, ?_⟩
  rintro ⟨x, listed, asks⟩
  have again : Again x.1 := by
    rcases List.mem_cons.mp listed with rfl | listed
    · exact start
    · rcases List.mem_cons.mp listed with rfl | listed
      · exact asked
      · exact (all x listed).1
  exact other (again.asks asks).symm

def honest (_ : Id × SocketAddr) (h : Digest) : Option (Tx Digest) :=
  [first, second].find? fun tx => tx.hash = h

theorem fetch_ends_iff_honest :
    ∃ steps last, Run (round honest)
        (∅, ⟨onlyPeer, ascendingOrder.hashes.list {second.hash}, none⟩) steps last ∧
      round honest last () = none ∧
      ∀ x ∈ steps, ∀ tx, Stores honest x.1 tx → Requested steps tx.hash := by
  have finite : {tx | ∃ peer ∈ onlyPeer, ∃ h, honest peer h = some tx}.Finite := by
    refine [first, second].finite_toSet.subset ?_
    rintro tx ⟨_, _, h, given⟩
    exact List.mem_of_find?_eq_some given
  refine (fetch_ends_iff honest ∅ onlyPeer ascendingOrder finite).1.mpr ?_ {second.hash}
  intro h _ tx answered
  obtain ⟨_, _, given⟩ := List.exists_of_findSome?_eq_some answered
  simpa using List.find?_some given

end Samples

end Subzero.Fetch
