import Subzero.Alpha.Bootstrap
import Subzero.Alpha.Genesis
import Subzero.Storage.Order

/-! A network of alpha actors. Nodes are started, crash and are started again on the store
they left; the started ones ask each other for their last accepted blocks. Alpha applies
no block but genesis, so this is where every node begins. -/
namespace Subzero

namespace Storage
variable {H : Type}

/-- Whether there is a first block in the database. -/
def existsGenesis (db : Db H) : Bool := db.first.isSome

/-- The hash in the last key. `none` is the panic on bytes that are no key. -/
def getLastAcceptedHash [HashBytes H] (db : Db H) : Option (Except StorageError H) :=
  match db.last with
  | some (k, _) => (Key.readFrom k).map fun key => .ok key.hash
  | none => some (.error .invalidLast)

end Storage

/-- What the genesis block is built from. -/
structure Origin (H : Type) where
  build : Build
  vrfOut : H
  stakers : List (InitialStaker H)

/-- A machine with its disk, or with the actor that runs on it. -/
inductive Host (H : Type) where
  | down (disk : Storage.Db H)
  | up (actor : AlphaActor H)

def Host.disk {H : Type} : Host H → Storage.Db H
  | .down disk => disk
  | .up actor => actor.tree

/-- The hosts, and the answers to `GetLastAccepted` that were given. -/
structure Network (N H : Type) where
  hosts : N → Host H
  answered : List H

inductive NetworkEvent (N H : Type) where
  | start (n : N) (order : BlockOrder H)
  | crash (n : N)
  | getLastAccepted (n : N)
  | act (n : N) (order : Listing (CellIds H)) (e : AlphaEvent H)

namespace AlphaActor
variable {H : Type} [LinearOrder H] [Blake3 H] [StakeCodec]

/-- `Alpha::create` -/
def create (tree : Storage.Db H) : AlphaActor H := ⟨tree, false, .new, [], [], []⟩

def applyGenesis (order : BlockOrder H) (w : AlphaActor H) (genesis : Block H) :
    Option (AlphaActor H) :=
  match w.state.apply order genesis with
  | .ok state => some { w with state := state }
  | .error _ => none

/-- `Actor::started`: genesis is read from the tree, or built and written to it. `none` is a
panic. -/
def started [KeyDigest H] [BlockDigest H] [Storage.HashBytes H] (origin : Origin H)
    (order : BlockOrder H) (w : AlphaActor H) : Option (AlphaActor H) :=
  if Storage.existsGenesis w.tree then
    match Storage.getGenesis w.tree with
    | some (.ok (_, genesis)) => w.applyGenesis order genesis
    | some (.error _) => none
    | none => none
  else
    match buildGenesis origin.build origin.vrfOut origin.stakers with
    | some (.ok genesis) =>
      match Storage.acceptGenesis w.tree genesis with
      | .ok _ tree => { w with tree := tree }.applyGenesis order genesis
      | .err _ _ => none
      | .panic => none
    | some (.error _) => none
    | none => none

omit [LinearOrder H] [Blake3 H] [StakeCodec] in
/-- `Handler<GetLastAccepted>` -/
def onGetLastAccepted [Storage.HashBytes H] (w : AlphaActor H) : Option H :=
  match Storage.getLastAcceptedHash w.tree with
  | some (.ok hash) => some hash
  | some (.error _) => none
  | none => none

end AlphaActor

namespace Network
variable {N H : Type} [DecidableEq N]

/-- All machines are new. -/
def new : Network N H := ⟨fun _ => .down ∅, []⟩

def set (net : Network N H) (n : N) (host : Host H) : Network N H :=
  { net with hosts := Function.update net.hosts n host }

variable [LinearOrder H] [Blake3 H] [KeyDigest H] [StakeCodec] [BlockDigest H]
  [Storage.HashBytes H]

/-- One step; `none` if the event cannot happen or its handler panics. A running node may be
started again. -/
def step (origin : Origin H) (net : Network N H) : NetworkEvent N H → Option (Network N H)
  | .start n order =>
    ((AlphaActor.create (net.hosts n).disk).started origin order).map fun actor =>
      net.set n (.up actor)
  | .crash n =>
    match net.hosts n with
    | .up actor => some (net.set n (.down actor.tree))
    | .down _ => none
  | .getLastAccepted n =>
    match net.hosts n with
    | .up actor => actor.onGetLastAccepted.map fun hash =>
        { net with answered := net.answered ++ [hash] }
    | .down _ => none
  | .act n order e =>
    match net.hosts n with
    | .up actor => (actor.step (order, e)).map fun actor' => net.set n (.up actor')
    | .down _ => none

/-- The hashes in a reply are answers of nodes. -/
def Honest (net : Network N H) : NetworkEvent N H → Prop
  | .act _ _ (.reply _ (some (.fanout responses))) =>
    ∀ hash ∈ AlphaActor.reported responses, hash ∈ net.answered
  | _ => True

end Network

section Store
variable {H : Type} [DecidableEq H] [BlockDigest H] [Storage.HashBytes H] (genesis : Block H)
open Storage

theorem getGenesis_fresh : getGenesis (fresh genesis) = some (.ok (genesis.hash, genesis)) := by
  obtain ⟨block, stored, -, read⟩ := getGenesis_lowest (List.cons_ne_nil genesis [])
  obtain rfl : block = genesis := List.mem_singleton.mp (latest_some stored).1
  exact read

theorem getLastAccepted_fresh :
    getLastAccepted (fresh genesis) = some (.ok (genesis.hash, genesis)) := by
  obtain ⟨block, stored, -, read⟩ := getLastAccepted_highest (List.cons_ne_nil genesis [])
  obtain rfl : block = genesis := List.mem_singleton.mp (latest_some stored).1
  exact read

omit [DecidableEq H] [BlockDigest H] in
theorem getLastAcceptedHash_eq (db : Db H) :
    getLastAcceptedHash db = (getLastAccepted db).map fun r => r.map Prod.fst := by
  unfold getLastAcceptedHash getLastAccepted
  cases db.last with
  | none => rfl
  | some entry => simp only [Option.map_map]; rfl

theorem existsGenesis_fresh : existsGenesis (fresh genesis) = true := by
  have read := getGenesis_fresh genesis
  unfold getGenesis at read
  unfold existsGenesis
  cases found : (fresh genesis).first with
  | none =>
    rw [found] at read
    simp at read
  | some _ => rfl

end Store

namespace AlphaActor
variable {H : Type} [LinearOrder H] [Blake3 H]
variable {w : AlphaActor H} {order : Listing (CellIds H)}

/-- The state is genesis applied to the empty one. -/
def AtGenesis [StakeCodec] (genesis : Block H) (s : Alpha.State H) : Prop :=
  ∃ order, Alpha.State.new.apply order genesis = .ok s

theorem AtGenesis.height [StakeCodec] {genesis : Block H} {s : Alpha.State H}
    (founded : AtGenesis genesis s) : s.height = 0 := by
  obtain ⟨order, applied⟩ := founded
  unfold Alpha.State.apply at applied
  split at applied
  · cases applied
  · obtain ⟨-, -, rfl⟩ := (Alpha.State.applyCells_iff _).mp applied
    exact Alpha.State.height_foldl _ _

/-- The live cells are cells of genesis. -/
theorem AtGenesis.live [StakeCodec] {genesis : Block H} {s : Alpha.State H}
    (founded : AtGenesis genesis s) {ids : CellIds H} {cell : Cell H}
    (found : s.liveCells.lookup ids = some cell) : cell ∈ genesis.cells := by
  obtain ⟨order, applied⟩ := founded
  unfold Alpha.State.apply at applied
  split at applied
  · cases applied
  · rename_i ordered listed
    obtain ⟨along, -, rfl⟩ := (Alpha.State.applyCells_iff _).mp applied
    have entry := Finmap.mem_lookup_iff.mp found
    rw [Alpha.State.entries_foldl along] at entry
    have new : (⟨ids, cell⟩ : Σ _ : CellIds H, Cell H) ∈ Alpha.entriesOf ordered := by
      rcases Multiset.mem_add.mp entry with new | old
      · exact new
      · exact absurd old (Multiset.notMem_zero _)
    obtain ⟨c, member, same⟩ := List.mem_map.mp new
    cases same
    exact (Alpha.State.orderedCells_ok listed).2.subset _ member

/-- The loop writes live cells only, each under its hash. -/
theorem liveCellMap_lookup (hash : H) (cell : Cell H) :
    (w.liveCellMap order).lookup hash = some cell →
      cell.hash = hash ∧ ∃ ids, w.state.liveCells.lookup ids = some cell := by
  revert hash cell
  refine List.foldlRecOn (motive := fun m : HashMap H (Cell H) => ∀ hash cell,
    m.lookup hash = some cell →
      cell.hash = hash ∧ ∃ ids, w.state.liveCells.lookup ids = some cell) _ _ (by simp) ?_
  intro m written ids _ hash cell found
  cases live : w.state.liveCells.lookup ids with
  | none =>
    simp only [live] at found
    exact written hash cell found
  | some c =>
    simp only [live] at found
    rcases HashMap.lookup_insert_some found with ⟨rfl, rfl⟩ | ⟨-, old⟩
    · exact ⟨rfl, ids, live⟩
    · exact written hash cell old

/-- What an actor on genesis tells the others. -/
def Tells [BlockDigest H] (genesis : Block H) (w : AlphaActor H) : AlphaSend H → Prop
  | .router validators => validators = w.getValidatorSet
  | .ice total validators =>
    total = w.state.totalStakingCapacity ∧ validators = w.state.validators
  | .sleet _ liveCells => ∀ hash cell, liveCells.lookup hash = some cell →
      cell.hash = hash ∧ cell ∈ genesis.cells
  | .hail msg => msg.lastAcceptedHash = genesis.hash ∧ msg.lastAcceptedBlock = ⟨none, genesis⟩ ∧
      msg.height = 0 ∧ msg.vrfOut = genesis.vrfOut

variable [StakeCodec] [BlockDigest H] [Storage.HashBytes H]

omit [Storage.HashBytes H] in
/-- A message that a quorum agreed on is about genesis, so what it makes the actor send is. -/
theorem receiveLastAccepted_tells {genesis : Block H} {committee : IceCommittee}
    {msg : ReceiveLastAccepted H} (founded : AtGenesis genesis w.state)
    (own : msg.lastAccepted = genesis.hash ∧ msg.lastBlock = genesis)
    (vrf : msg.lastVrfOutput = genesis.vrfOut) :
    ∀ m ∈ w.receiveLastAccepted order committee msg, Tells genesis w m := by
  intro m sent
  unfold receiveLastAccepted at sent
  split at sent
  · rcases List.mem_append.mp sent with routed | started
    · split at routed
      · rw [List.mem_singleton.mp routed]
        exact rfl
      · cases routed
    · simp only [List.mem_cons, List.not_mem_nil, or_false] at started
      rcases started with rfl | rfl | rfl
      · exact ⟨rfl, rfl⟩
      · intro hash cell found
        obtain ⟨named, ids, live⟩ := liveCellMap_lookup hash cell found
        exact ⟨named, founded.live live⟩
      · exact ⟨own.1, by rw [own.2], founded.height, vrf⟩
  · cases sent

/-- An actor that was started on genesis: everything in it and from it is about genesis. -/
structure Rooted (genesis : Block H) (w : AlphaActor H) : Prop where
  founded : AtGenesis genesis w.state
  settled : Settled (Storage.fresh genesis) genesis.hash genesis w
  vrf : ∀ msg, .receiveLastAccepted msg ∈ w.mailbox → msg.lastVrfOutput = genesis.vrfOut
  told : ∀ m ∈ w.sent, Tells genesis w m

section Step
variable {genesis : Block H} {w w' : AlphaActor H}

theorem Rooted.handle {committee : IceCommittee} {i : Nat} {m : AlphaMessage H}
    (rooted : Rooted genesis w) (there : m ∈ w.mailbox)
    (taken : { w with mailbox := w.mailbox.eraseIdx i }.handle order committee m = some w') :
    Rooted genesis w' := by
  have settled := rooted.settled.handle (getLastAccepted_fresh genesis) there taken
  have vrf : ∀ msg, .receiveLastAccepted msg ∈ w.mailbox.eraseIdx i →
      msg.lastVrfOutput = genesis.vrfOut :=
    fun msg listed => rooted.vrf msg (List.mem_of_mem_eraseIdx listed)
  cases m with
  | queryLastAccepted peers =>
    simp only [AlphaActor.handle, onQueryLastAccepted, rooted.settled.tree,
      getLastAccepted_fresh genesis] at taken
    cases taken
    exact ⟨rooted.founded, settled, vrf, rooted.told⟩
  | receiveLastAccepted msg =>
    cases taken
    refine ⟨rooted.founded, settled, vrf, fun out sent => ?_⟩
    rcases List.mem_append.mp sent with old | new
    · exact rooted.told out old
    · exact receiveLastAccepted_tells rooted.founded (rooted.settled.posted msg there)
        (rooted.vrf msg there) out new

omit [Storage.HashBytes H] [BlockDigest H] [StakeCodec] [Blake3 H] in
/-- The messages for the hashes that were reported twice have the VRF output of the block
that was last at the query. -/
theorem onReply_vrf {q : TipQuery H} {response : Option (TipReply H)} {vrfOut : H}
    (query : q.lastBlock.vrfOut = vrfOut)
    (before : ∀ msg, .receiveLastAccepted msg ∈ w.mailbox → msg.lastVrfOutput = vrfOut) :
    ∀ msg, .receiveLastAccepted msg ∈ (w.onReply q response).mailbox →
      msg.lastVrfOutput = vrfOut := by
  intro msg listed
  rcases response with _ | responses | _
  · exact before msg listed
  · rcases List.mem_append.mp listed with old | new
    · exact before msg old
    · obtain ⟨_, agreed, same⟩ := List.mem_map.mp new
      cases same
      obtain ⟨_, -, rfl⟩ := mem_agreed.mp agreed
      exact query
  · exact before msg listed

theorem Rooted.step {x : Listing (CellIds H) × AlphaEvent H} (rooted : Rooted genesis w)
    (agreeing : Agreeing w x) (taken : w.step x = some w') : Rooted genesis w' := by
  have settled := rooted.settled.step (getLastAccepted_fresh genesis) agreeing taken
  obtain ⟨order, e⟩ := x
  cases e with
  | initRouter =>
    cases taken
    refine ⟨rooted.founded, settled, rooted.vrf, fun m sent => ?_⟩
    rcases List.mem_append.mp sent with old | new
    · exact rooted.told m old
    · rw [List.mem_singleton.mp new]
      exact rfl
  | liveNetwork livePeers =>
    cases taken
    refine ⟨rooted.founded, settled, fun msg listed => ?_, rooted.told⟩
    rcases List.mem_append.mp listed with old | new
    · exact rooted.vrf msg old
    · simp at new
  | deliver i committee =>
    simp only [AlphaActor.step] at taken
    split at taken
    · contradiction
    · rename_i m found
      exact rooted.handle (List.mem_of_getElem? found) taken
  | reply i response =>
    simp only [AlphaActor.step] at taken
    split at taken
    · contradiction
    · rename_i q found
      cases taken
      have query := rooted.settled.queries q (List.mem_of_getElem? found)
      have vrf : ∀ msg, .receiveLastAccepted msg ∈
          (onReply { w with requests := w.requests.eraseIdx i } q response).mailbox →
            msg.lastVrfOutput = genesis.vrfOut :=
        onReply_vrf (congrArg Block.vrfOut query) rooted.vrf
      rcases response with _ | _ | _ <;> exact ⟨rooted.founded, settled, vrf, rooted.told⟩

end Step

variable [KeyDigest H] {origin : Origin H} {genesis : Block H}

/-- On a new disk and on that of an earlier start the same block is applied. -/
theorem started_eq
    (built : buildGenesis origin.build origin.vrfOut origin.stakers = some (.ok genesis))
    {disk : Storage.Db H} (known : disk = ∅ ∨ disk = Storage.fresh genesis)
    (order : BlockOrder H) : (create disk).started origin order =
      (create (Storage.fresh genesis)).applyGenesis order genesis := by
  unfold started
  rcases known with rfl | rfl
  · rw [if_neg (by simp [create, Storage.existsGenesis, Storage.Db.first]), built]
    rfl
  · rw [if_pos (by exact existsGenesis_fresh genesis)]
    simp only [create, getGenesis_fresh genesis]

omit [KeyDigest H] in
theorem applyGenesis_rooted {order : BlockOrder H}
    (applied : (create (Storage.fresh genesis)).applyGenesis order genesis = some w) :
    Rooted genesis w := by
  unfold applyGenesis at applied
  split at applied
  · rename_i state transition
    cases applied
    exact ⟨⟨order, transition⟩, ⟨rfl, by simp [create], by simp [create], by simp [create]⟩,
      by simp [create], by simp [create]⟩
  · cases applied

omit [KeyDigest H] in
theorem Rooted.answers (rooted : Rooted genesis w) : w.onGetLastAccepted = some genesis.hash := by
  simp only [onGetLastAccepted, getLastAcceptedHash_eq, rooted.settled.tree,
    getLastAccepted_fresh genesis, Option.map_some, Except.map]

omit [KeyDigest H] in
/-- No handler of the actor panics. -/
theorem Rooted.delivers (rooted : Rooted genesis w) {i : Nat} (there : i < w.mailbox.length)
    (order : Listing (CellIds H)) (committee : IceCommittee) :
    ∃ w', w.step (order, .deliver i committee) = some w' := by
  simp only [AlphaActor.step, List.getElem?_eq_getElem there]
  cases w.mailbox[i] with
  | queryLastAccepted peers =>
    simp only [AlphaActor.handle, onQueryLastAccepted, rooted.settled.tree,
      getLastAccepted_fresh genesis]
    exact ⟨_, rfl⟩
  | receiveLastAccepted msg => exact ⟨_, rfl⟩

end AlphaActor

namespace Network

section Runs
variable {N H : Type} [DecidableEq N] [LinearOrder H] [Blake3 H] [KeyDigest H] [StakeCodec]
  [BlockDigest H] [Storage.HashBytes H] {origin : Origin H} {genesis : Block H}

/-- Every disk is new or has genesis, and every actor is rooted there. -/
structure Rooted (genesis : Block H) (net : Network N H) : Prop where
  disks : ∀ n, (net.hosts n).disk = ∅ ∨ (net.hosts n).disk = Storage.fresh genesis
  actors : ∀ n actor, net.hosts n = .up actor → actor.Rooted genesis
  answered : ∀ hash ∈ net.answered, hash = genesis.hash

omit [KeyDigest H] in
theorem Rooted.set {net : Network N H} (rooted : Rooted genesis net) (n : N) {host : Host H}
    (disk : host.disk = ∅ ∨ host.disk = Storage.fresh genesis)
    (actor : ∀ a, host = .up a → a.Rooted genesis) : Rooted genesis (net.set n host) where
  disks m := by
    by_cases same : m = n
    · subst same
      simpa [Network.set] using disk
    · simpa [Network.set, same] using rooted.disks m
  actors m a up := by
    by_cases same : m = n
    · subst same
      exact actor a (by simpa [Network.set] using up)
    · exact rooted.actors m a (by simpa [Network.set, same] using up)
  answered := rooted.answered

omit [KeyDigest H] [DecidableEq N] in
/-- Honest replies have no other hash than that of genesis. -/
theorem Rooted.agreeing {net : Network N H} (rooted : Rooted genesis net) {n : N}
    {actor : AlphaActor H} (up : net.hosts n = .up actor) {order : Listing (CellIds H)}
    {e : AlphaEvent H} (honest : Honest net (.act n order e)) :
    actor.Agreeing (order, e) := by
  have tip : actor.tip = some genesis.hash := by
    rw [AlphaActor.tip, (rooted.actors n actor up).settled.tree, getLastAccepted_fresh]
  cases e with
  | reply i response =>
    rcases response with _ | responses | _
    · exact trivial
    · intro _ hash listed _
      rw [rooted.answered hash (honest hash listed), tip]
    · exact trivial
  | initRouter => exact trivial
  | liveNetwork => exact trivial
  | deliver => exact trivial

theorem Rooted.step
    (built : buildGenesis origin.build origin.vrfOut origin.stakers = some (.ok genesis))
    {net net' : Network N H} (rooted : Rooted genesis net) {e : NetworkEvent N H}
    (honest : Honest net e) (taken : net.step origin e = some net') : Rooted genesis net' := by
  cases e with
  | start n order =>
    obtain ⟨actor, started, rfl⟩ := Option.map_eq_some_iff.mp taken
    rw [AlphaActor.started_eq built (rooted.disks n)] at started
    have new := AlphaActor.applyGenesis_rooted started
    refine rooted.set n (.inr new.settled.tree) ?_
    rintro a ⟨⟩
    exact new
  | crash n =>
    simp only [Network.step] at taken
    split at taken
    · rename_i actor up
      cases taken
      exact rooted.set n (.inr (rooted.actors n actor up).settled.tree) nofun
    · cases taken
  | getLastAccepted n =>
    simp only [Network.step] at taken
    split at taken
    · rename_i actor up
      rw [(rooted.actors n actor up).answers] at taken
      cases taken
      refine ⟨rooted.disks, rooted.actors, fun hash listed => ?_⟩
      rcases List.mem_append.mp listed with old | new
      · exact rooted.answered hash old
      · exact List.mem_singleton.mp new
    · cases taken
  | act n order e =>
    simp only [Network.step] at taken
    split at taken
    · rename_i actor up
      obtain ⟨actor', acted, rfl⟩ := Option.map_eq_some_iff.mp taken
      have next := (rooted.actors n actor up).step (rooted.agreeing up honest) acted
      refine rooted.set n (.inr next.settled.tree) ?_
      rintro a ⟨⟩
      exact next
    · cases taken

instance (net : Network N H) (e : NetworkEvent N H) : Decidable (Honest net e) :=
  match e with
  | .act _ _ (.reply _ (some (.fanout _))) => inferInstanceAs (Decidable (∀ hash ∈ _, hash ∈ _))
  | .act _ _ (.reply _ (some .oneshot)) => .isTrue trivial
  | .act _ _ (.reply _ none) => .isTrue trivial
  | .act _ _ .initRouter => .isTrue trivial
  | .act _ _ (.liveNetwork _) => .isTrue trivial
  | .act _ _ (.deliver _ _) => .isTrue trivial
  | .start _ _ => .isTrue trivial
  | .crash _ => .isTrue trivial
  | .getLastAccepted _ => .isTrue trivial

end Runs

section Sample

theorem hashNumber_injective : Function.Injective (BitVec.toNat : BitVec 256 → Nat) :=
  fun _ _ => BitVec.eq_of_toNat_eq

/-- Hashes in the order of the numbers they are. -/
@[reducible] def hashOrder : LinearOrder (BitVec 256) :=
  LinearOrder.lift' BitVec.toNat hashNumber_injective

local instance : LinearOrder (BitVec 256) := hashOrder

instance : KeyDigest (BitVec 256) where
  ofPublic key := BitVec.ofNat 256 key.length

/-- How many messages a running node has sent. -/
def told (net : Network Bool (BitVec 256)) (n : Bool) : Nat :=
  match net.hosts n with
  | .up actor => actor.sent.length
  | .down _ => 0

end Sample
end Network
end Subzero
