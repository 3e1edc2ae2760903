import Subzero.Alpha.Actor
import Subzero.Ideal
import Subzero.Lib.Run

/-! On which block alpha starts consensus. The message that decides it compares the hash
that the peers report with itself, so it starts on whatever two peers report. It starts on
its own last block exactly if two peers never report another one. -/
namespace Subzero.AlphaActor
variable {H : Type} [DecidableEq H]

/-- The loop after the hashes `v`. -/
structure Counted (lastBlock : Block H) (v : List H) (acc : Occurrences H) : Prop where
  counts : ∀ h, acc.occurrences.lookup h =
    if v.count h = 0 then none else some (min (v.count h - 1) 1)
  applied : ∀ h, h ∈ acc.alreadyApplied ↔ 2 ≤ v.count h
  notified : ∀ msg, msg ∈ acc.notified ↔
    ∃ h, 2 ≤ v.count h ∧ msg = ⟨h, lastBlock, lastBlock.vrfOut, h⟩

theorem count_push (v : List H) (hash h : H) :
    (v ++ [hash]).count h = v.count h + if h = hash then 1 else 0 := by
  rw [List.count_append, List.count_singleton]
  by_cases here : h = hash
  · simp [here]
  · simp [here, Ne.symm here]

/-- A hash is reported twice from its second occurrence on. -/
theorem two_le_count_push (v : List H) (hash h : H) :
    2 ≤ (v ++ [hash]).count h ↔ 2 ≤ v.count h ∨ h = hash ∧ v.count hash = 1 := by
  rw [count_push]
  by_cases here : h = hash
  · subst here
    simp only [if_true, true_and]
    omega
  · simp [here]

/-- What the loop does with a hash. The threshold is reached with the first occurrence that is
counted, which is the second one. -/
theorem countHash_cases (lastBlock : Block H) (acc : Occurrences H) (hash : H) :
    (acc.occurrences.lookup hash = none ∧ countHash lastBlock acc hash =
      { acc with occurrences := acc.occurrences.insert hash 0 }) ∨
    (∃ n, acc.occurrences.lookup hash = some n ∧ hash ∈ acc.alreadyApplied ∧
      countHash lastBlock acc hash = acc) ∨
    ∃ n, acc.occurrences.lookup hash = some n ∧ hash ∉ acc.alreadyApplied ∧
      countHash lastBlock acc hash =
        ⟨acc.occurrences.insert hash (n + 1), Insert.insert hash acc.alreadyApplied,
          acc.notified ++ [⟨hash, lastBlock, lastBlock.vrfOut, hash⟩]⟩ := by
  cases found : acc.occurrences.lookup hash with
  | none => exact .inl ⟨rfl, by simp only [countHash, found]⟩
  | some n =>
    by_cases done : hash ∈ acc.alreadyApplied
    · exact .inr (.inl ⟨n, rfl, done, by simp only [countHash, found, if_pos done]⟩)
    · refine .inr (.inr ⟨n, rfl, done, ?_⟩)
      simp only [countHash, found, if_neg done, Ice.threshold, Nat.le_add_left, if_true]

theorem Counted.round {lastBlock : Block H} {v : List H} {acc : Occurrences H}
    (counted : Counted lastBlock v acc) (hash : H) :
    Counted lastBlock (v ++ [hash]) (countHash lastBlock acc hash) := by
  have counts : ∀ h, acc.occurrences.lookup h =
      if v.count h = 0 then none else some (min (v.count h - 1) 1) := counted.counts
  have here := counts hash
  rcases countHash_cases lastBlock acc hash with
    ⟨unseen, same⟩ | ⟨n, _, done, same⟩ | ⟨n, seen, fresh, same⟩
  · -- the first occurrence is counted as zero
    have none : v.count hash = 0 := by
      by_contra some
      rw [unseen, if_neg some] at here
      contradiction
    rw [same]
    refine ⟨fun h => ?_, fun h => ?_, fun msg => ?_⟩
    · rw [HashMap.lookup_insert_ite, count_push, counts]
      by_cases here : h = hash <;> simp [here, none]
    · rw [counted.applied, two_le_count_push, none]
      simp
    · simp only [counted.notified, two_le_count_push, none]
      simp
  · -- later ones are passed over
    have more : 2 ≤ v.count hash := (counted.applied hash).mp done
    have other : v.count hash ≠ 1 := by omega
    rw [same]
    refine ⟨fun h => ?_, fun h => ?_, fun msg => ?_⟩
    · rw [count_push, counts]
      by_cases here : h = hash
      · subst here
        rw [if_neg (by omega), if_neg (by simp), if_pos rfl]
        congr 1
        omega
      · simp [here]
    · rw [counted.applied, two_le_count_push]
      simp [other]
    · simp only [counted.notified, two_le_count_push, other]
      simp
  · -- the second one makes the message
    have less : ¬ 2 ≤ v.count hash := fun more => fresh ((counted.applied hash).mpr more)
    have one : v.count hash = 1 := by
      by_contra other
      rw [seen, if_pos (by omega)] at here
      contradiction
    rw [seen, one] at here
    obtain rfl : n = 0 := Option.some.inj here
    rw [same]
    refine ⟨fun h => ?_, fun h => ?_, fun msg => ?_⟩
    · rw [HashMap.lookup_insert_ite, count_push, counts]
      by_cases here : h = hash <;> simp [here, one]
    · rw [Finset.mem_insert, counted.applied, two_le_count_push, one, or_comm]
      simp
    · simp only [List.mem_append, counted.notified, List.mem_singleton, two_le_count_push, one,
        and_true, or_and_right, exists_or, exists_eq_left]

theorem counted_foldl (lastBlock : Block H) (v : List H) :
    Counted lastBlock v (v.foldl (countHash lastBlock) ⟨∅, ∅, []⟩) := by
  induction v using List.reverseRecOn with
  | nil => exact ⟨by simp, by simp, by simp⟩
  | append_singleton v hash ih =>
    rw [List.foldl_append]
    exact ih.round hash

/-- A message is sent for every hash that is reported twice, and it has no other hash. -/
theorem mem_agreed {lastBlock : Block H} {v : List H} {msg : ReceiveLastAccepted H} :
    msg ∈ agreed lastBlock v ↔
      ∃ h, 2 ≤ v.count h ∧ msg = ⟨h, lastBlock, lastBlock.vrfOut, h⟩ :=
  (counted_foldl lastBlock v).notified msg

/-- A message has been made once at most for each hash, and only for applied ones. -/
structure Once (acc : Occurrences H) : Prop where
  nodup : (acc.notified.map ReceiveLastAccepted.lastAccepted).Nodup
  applied : ∀ msg ∈ acc.notified, msg.lastAccepted ∈ acc.alreadyApplied

theorem Once.round {lastBlock : Block H} {acc : Occurrences H} (once : Once acc) (hash : H) :
    Once (countHash lastBlock acc hash) := by
  rcases countHash_cases lastBlock acc hash with
    ⟨_, same⟩ | ⟨_, _, _, same⟩ | ⟨_, _, fresh, same⟩
  · rw [same]
    exact ⟨once.nodup, once.applied⟩
  · rw [same]
    exact once
  · rw [same]
    constructor
    · rw [List.map_append, List.map_singleton, List.nodup_append]
      refine ⟨once.nodup, List.nodup_singleton _, ?_⟩
      rintro a listed b new rfl
      obtain ⟨msg, sent, rfl⟩ := List.mem_map.mp listed
      have again : msg.lastAccepted = hash := List.mem_singleton.mp new
      exact fresh (again ▸ once.applied msg sent)
    · intro msg sent
      rcases List.mem_append.mp sent with before | new
      · exact Finset.mem_insert_of_mem (once.applied msg before)
      · rw [List.mem_singleton.mp new]
        exact Finset.mem_insert_self _ _

theorem agreed_nodup (lastBlock : Block H) (v : List H) :
    ((agreed lastBlock v).map ReceiveLastAccepted.lastAccepted).Nodup := by
  have once : Once (v.foldl (countHash lastBlock) ⟨∅, ∅, []⟩) := by
    induction v using List.reverseRecOn with
    | nil => exact ⟨List.nodup_nil, by simp⟩
    | append_singleton v hash ih =>
      rw [List.foldl_append]
      exact ih.round hash
  exact once.nodup

/-- The handler sends one message at most for a hash. The hashes are those that at least
`⌈K * ALPHA⌉` peers report exactly if none is reported by just so many: the first report is
not counted. -/
theorem quorum_counted_iff (w : AlphaActor H) (q : TipQuery H)
    (responses : List (TipResponse H)) :
    ∃ sent : List (ReceiveLastAccepted H),
      (w.onReply q (some (.fanout responses))).mailbox =
        w.mailbox ++ sent.map .receiveLastAccepted ∧
      (sent.map ReceiveLastAccepted.lastAccepted).Nodup ∧
      ((∀ h, h ∈ sent.map ReceiveLastAccepted.lastAccepted ↔
          ⌈(Ice.K : ℚ) * Ice.ALPHA⌉₊ ≤ (reported responses).count h) ↔
        ∀ h, (reported responses).count h ≠ ⌈(Ice.K : ℚ) * Ice.ALPHA⌉₊) := by
  refine ⟨agreed q.lastBlock (reported responses), rfl, agreed_nodup _ _, ?_⟩
  refine forall_congr' fun h => ?_
  have sent : h ∈ (agreed q.lastBlock (reported responses)).map ReceiveLastAccepted.lastAccepted ↔
      2 ≤ (reported responses).count h := by
    simp only [List.mem_map, mem_agreed]
    constructor
    · rintro ⟨_, ⟨h', twice, rfl⟩, rfl⟩
      exact twice
    · exact fun twice => ⟨_, ⟨h, twice, rfl⟩, rfl⟩
  rw [sent, Ice.threshold]
  omega

variable [Blake3 H] [Storage.HashBytes H]

/-- The hash of the last block in the store. -/
def tip (w : AlphaActor H) : Option H :=
  match Storage.getLastAccepted w.tree with
  | some (.ok (hash, _)) => some hash
  | _ => none

/-- What the responses to a query lead to: for any other hash than that of the own last
block, nothing is started. -/
def OnTip (w : AlphaActor H) : Listing (CellIds H) × AlphaEvent H → Prop
  | (_, .reply i (some (.fanout responses))) =>
    ∀ q ∈ w.requests[i]?, ∀ msg ∈ agreed q.lastBlock (reported responses),
      w.tip ≠ some msg.lastAccepted →
        ∀ order committee, w.receiveLastAccepted order committee msg = []
  | _ => True

/-- No other hash is reported twice. -/
def Agreeing (w : AlphaActor H) : Listing (CellIds H) × AlphaEvent H → Prop
  | (_, .reply i (some (.fanout responses))) =>
    (w.requests[i]?).isSome → ∀ h ∈ reported responses, 2 ≤ (reported responses).count h →
      w.tip = some h
  | _ => True

instance (w : AlphaActor H) (x : Listing (CellIds H) × AlphaEvent H) : Decidable (Agreeing w x) :=
  match x with
  | (_, .reply _ (some (.fanout _))) => inferInstanceAs (Decidable (_ → ∀ h ∈ _, _ → _))
  | (_, .reply _ (some .oneshot)) => .isTrue trivial
  | (_, .reply _ none) => .isTrue trivial
  | (_, .initRouter) => .isTrue trivial
  | (_, .liveNetwork _) => .isTrue trivial
  | (_, .deliver _ _) => .isTrue trivial

/-- The hashes of a message are the same, so ice, sleet and hail are always started. -/
theorem onTip_iff_agreeing (w : AlphaActor H) (x : Listing (CellIds H) × AlphaEvent H) :
    OnTip w x ↔ Agreeing w x := by
  obtain ⟨order, e⟩ := x
  cases e with
  | reply i response =>
    cases response with
    | none => exact Iff.rfl
    | some r =>
      cases r with
      | oneshot => exact Iff.rfl
      | fanout responses =>
        constructor
        · intro onTip asked h _ twice
          obtain ⟨q, found⟩ := Option.isSome_iff_exists.mp asked
          by_contra other
          have silent := onTip q found _ (mem_agreed.mpr ⟨h, twice, rfl⟩) other order ⟨0, ∅, ∅⟩
          simp [receiveLastAccepted] at silent
        · intro agreeing q found msg sent other
          obtain ⟨h, twice, rfl⟩ := mem_agreed.mp sent
          have listed : h ∈ reported responses := List.count_pos_iff.mp (by omega)
          exact absurd (agreeing (Option.isSome_of_mem found) h listed twice) other
  | initRouter => exact Iff.rfl
  | liveNetwork => exact Iff.rfl
  | deliver => exact Iff.rfl

/-- Queries, messages and what was sent are about the last block of the store. -/
structure Settled (tree : Storage.Db H) (hash : H) (block : Block H) (w : AlphaActor H) :
    Prop where
  tree : w.tree = tree
  queries : ∀ q ∈ w.requests, q.lastBlock = block
  posted : ∀ msg, .receiveLastAccepted msg ∈ w.mailbox →
    msg.lastAccepted = hash ∧ msg.lastBlock = block
  sent : ∀ msg, .hail msg ∈ w.sent →
    msg.lastAcceptedHash = hash ∧ msg.lastAcceptedBlock = ⟨none, block⟩

omit [Storage.HashBytes H] in
/-- The message to hail is the only one that names a block. -/
theorem hail_mem_receiveLastAccepted {order : Listing (CellIds H)} {committee : IceCommittee}
    {w : AlphaActor H} {msg : ReceiveLastAccepted H} {out : LiveCommittee H}
    (sent : .hail out ∈ w.receiveLastAccepted order committee msg) :
    out.lastAcceptedHash = msg.lastAccepted ∧ out.lastAcceptedBlock = ⟨none, msg.lastBlock⟩ := by
  unfold receiveLastAccepted at sent
  split at sent
  · rcases List.mem_append.mp sent with routed | started
    · split at routed <;> simp at routed
    · simp only [List.mem_cons, reduceCtorEq, AlphaSend.hail.injEq, List.not_mem_nil, or_false,
        false_or] at started
      rw [started]
      exact ⟨rfl, rfl⟩
  · simp at sent

section Step
variable {tree : Storage.Db H} {hash : H} {block : Block H} {w w' : AlphaActor H}

/-- A query reads the last block of the store, and a message starts hail on its own hash. -/
theorem Settled.handle {order : Listing (CellIds H)} {committee : IceCommittee} {i : Nat}
    {m : AlphaMessage H} (last : Storage.getLastAccepted tree = some (.ok (hash, block)))
    (settled : Settled tree hash block w) (there : m ∈ w.mailbox)
    (taken : { w with mailbox := w.mailbox.eraseIdx i }.handle order committee m = some w') :
    Settled tree hash block w' := by
  have erased : ∀ msg, .receiveLastAccepted msg ∈ w.mailbox.eraseIdx i →
      msg.lastAccepted = hash ∧ msg.lastBlock = block :=
    fun msg member => settled.posted msg (List.mem_of_mem_eraseIdx member)
  cases m with
  | queryLastAccepted peers =>
    simp only [AlphaActor.handle, onQueryLastAccepted, settled.tree, last] at taken
    cases taken
    refine ⟨rfl, fun q member => ?_, erased, settled.sent⟩
    rcases List.mem_append.mp member with old | new
    · exact settled.queries q old
    · rw [List.mem_singleton.mp new]
  | receiveLastAccepted msg =>
    cases taken
    have here := settled.posted msg there
    refine ⟨settled.tree, settled.queries, erased, fun out member => ?_⟩
    rcases List.mem_append.mp member with old | new
    · exact settled.sent out old
    · rw [← here.1, ← here.2]
      exact hail_mem_receiveLastAccepted new

omit [Blake3 H] [Storage.HashBytes H] in
/-- Messages are posted for the own hash if no other one is reported twice. -/
theorem Settled.onReply {i : Nat} {q : TipQuery H} {response : Option (TipReply H)}
    (settled : Settled tree hash block w) (there : q ∈ w.requests)
    (own : ∀ responses, response = some (.fanout responses) →
      ∀ h, 2 ≤ (reported responses).count h → h = hash) :
    Settled tree hash block
      ({ w with requests := w.requests.eraseIdx i }.onReply q response) := by
  have erased : ∀ q ∈ w.requests.eraseIdx i, q.lastBlock = block :=
    fun q member => settled.queries q (List.mem_of_mem_eraseIdx member)
  cases response with
  | none => exact ⟨settled.tree, erased, settled.posted, settled.sent⟩
  | some r =>
    cases r with
    | oneshot => exact ⟨settled.tree, erased, settled.posted, settled.sent⟩
    | fanout responses =>
      refine ⟨settled.tree, erased, fun msg member => ?_, settled.sent⟩
      rcases List.mem_append.mp member with old | new
      · exact settled.posted msg old
      · obtain ⟨_, sent, same⟩ := List.mem_map.mp new
        cases same
        obtain ⟨h, twice, rfl⟩ := mem_agreed.mp sent
        exact ⟨own responses rfl h twice, settled.queries q there⟩

theorem Settled.step {x : Listing (CellIds H) × AlphaEvent H}
    (last : Storage.getLastAccepted tree = some (.ok (hash, block)))
    (settled : Settled tree hash block w) (agreeing : Agreeing w x)
    (taken : w.step x = some w') : Settled tree hash block w' := by
  have tip : w.tip = some hash := by rw [AlphaActor.tip, settled.tree, last]
  obtain ⟨order, e⟩ := x
  cases e with
  | initRouter =>
    cases taken
    refine ⟨settled.tree, settled.queries, settled.posted, fun msg member => ?_⟩
    rcases List.mem_append.mp member with old | new
    · exact settled.sent msg old
    · simp at new
  | liveNetwork livePeers =>
    cases taken
    refine ⟨settled.tree, settled.queries, fun msg member => ?_, settled.sent⟩
    rcases List.mem_append.mp member with old | new
    · exact settled.posted msg old
    · simp at new
  | deliver i committee =>
    simp only [AlphaActor.step] at taken
    split at taken
    · contradiction
    · rename_i m found
      exact settled.handle last (List.mem_of_getElem? found) taken
  | reply i response =>
    simp only [AlphaActor.step] at taken
    split at taken
    · contradiction
    · rename_i q found
      cases taken
      refine settled.onReply (List.mem_of_getElem? found) ?_
      rintro responses rfl h twice
      have listed : h ∈ reported responses := List.count_pos_iff.mp (by omega)
      have own := agreeing (Option.isSome_of_mem found) h listed twice
      rw [tip] at own
      exact (Option.some.inj own).symm

end Step

/-- An actor before its first message, with any store and any state. -/
def idle (tree : Storage.Db H) (router : Bool) (state : Alpha.State H) : AlphaActor H :=
  ⟨tree, router, state, [], [], []⟩

/-- For every store and all responses, consensus is started on the own last block only
exactly if no other hash is ever reported twice. Then hail is only ever given that block. -/
theorem starts_on_tip (tree : Storage.Db H) (router : Bool) (state : Alpha.State H)
    {steps : List (AlphaActor H × Listing (CellIds H) × AlphaEvent H)} {w : AlphaActor H}
    (run : Run step (idle tree router state) steps w) :
    (Meets OnTip steps ↔ Meets Agreeing steps) ∧
      ∀ hash block, Storage.getLastAccepted tree = some (.ok (hash, block)) →
        Meets Agreeing steps → ∀ msg, .hail msg ∈ w.sent →
          msg.lastAcceptedHash = hash ∧ msg.lastAcceptedBlock = ⟨none, block⟩ := by
  constructor
  · exact forall₂_congr fun x _ => onTip_iff_agreeing x.1 x.2
  · intro hash block last agreeing
    have settled := run.invariant Agreeing agreeing (Settled tree hash block)
      ⟨rfl, by simp [idle], by simp [idle], by simp [idle]⟩
      fun u x v settled meets taken => settled.step last meets taken
    exact settled.sent

section Sample

/-- Cells are told apart by their outputs; the sample has none. -/
instance : Blake3 (BitVec 256) where
  ofCell c := BitVec.ofNat 256 c.outputs.length
  ofOutput h i := h + BitVec.ofNat 256 i.toNat

def hashKey (id : CellId (BitVec 256)) : Nat := id.bytes.toNat

theorem hashKey_injective : Function.Injective hashKey := by
  rintro ⟨a⟩ ⟨b⟩ same
  exact congrArg CellId.mk (BitVec.eq_of_toNat_eq same)

def ascendingSets : Listing (CellIds (BitVec 256)) :=
  ascending (setKey hashKey hashKey_injective) (setKey_injective hashKey hashKey_injective)

/-- A node with the genesis block, whose two peers answer with hashes. -/
def runPeers (first second : BitVec 256) :
    Option (List (AlphaActor (BitVec 256) × Listing (CellIds (BitVec 256)) ×
      AlphaEvent (BitVec 256)) × AlphaActor (BitVec 256)) :=
  exec step (idle (Storage.fresh Storage.genesis) false .new)
    ([.liveNetwork [(⟨1⟩, "one"), (⟨2⟩, "two")], .deliver 0 ⟨1, ∅, ∅⟩,
      .reply 0 (some (.fanout [.lastAccepted first, .lastAccepted second])),
      .deliver 0 ⟨1, ∅, ∅⟩].map fun e => (ascendingSets, e))

/-- The hashes that hail was started on. -/
def startedOn (w : AlphaActor (BitVec 256)) : List (BitVec 256) :=
  w.sent.filterMap fun
    | .hail msg => some msg.lastAcceptedHash
    | _ => none

theorem genesis_last : Storage.getLastAccepted (Storage.fresh Storage.genesis) =
    some (.ok (Storage.genesis.hash, Storage.genesis)) := by
  decide +kernel

/-- Both peers report the genesis block. -/
theorem starts_on_tip_genesis :
    ∃ steps w, Run step (idle (Storage.fresh Storage.genesis) false .new) steps w ∧
      w.startedOn = [Storage.genesis.hash] ∧ Meets OnTip steps ∧
      ∀ msg, .hail msg ∈ w.sent → msg.lastAcceptedBlock = ⟨none, Storage.genesis⟩ := by
  have found : (runPeers Storage.genesis.hash Storage.genesis.hash).any (fun r =>
      decide (r.2.startedOn = [Storage.genesis.hash] ∧ ∀ x ∈ r.1, Agreeing x.1 x.2)) = true := by
    decide +kernel
  obtain ⟨steps, w, run, facts⟩ := exec_any found
  obtain ⟨started, agreeing⟩ := of_decide_eq_true facts
  obtain ⟨onTip, sent⟩ := starts_on_tip _ _ _ run
  exact ⟨steps, w, run, started, onTip.mpr agreeing,
    fun msg member => (sent _ _ genesis_last agreeing msg member).2⟩

/-- One peer reports a hash, which is as many as are asked for, and no message is sent. -/
theorem quorum_missed :
    ⌈(Ice.K : ℚ) * Ice.ALPHA⌉₊ ≤ (reported [TipResponse.lastAccepted (7 : BitVec 256)]).count 7 ∧
    ((idle (Storage.fresh Storage.genesis) false .new).onReply ⟨[], Storage.genesis⟩
      (some (.fanout [.lastAccepted (7 : BitVec 256)]))).mailbox.length = 0 := by
  rw [Ice.threshold]
  decide +kernel

/-- Both peers report a block that the node does not have, and it starts on that. -/
theorem starts_on_reported :
    ∃ steps w, Run step (idle (Storage.fresh Storage.genesis) false .new) steps w ∧
      w.tip = some Storage.genesis.hash ∧ w.startedOn = [7] ∧ 7 ≠ Storage.genesis.hash := by
  have found : (runPeers 7 7).any (fun r =>
      decide (r.2.tip = some Storage.genesis.hash ∧ r.2.startedOn = [7] ∧
        7 ≠ Storage.genesis.hash)) = true := by
    decide +kernel
  obtain ⟨steps, w, run, facts⟩ := exec_any found
  exact ⟨steps, w, run, of_decide_eq_true facts⟩

end Sample

end Subzero.AlphaActor
