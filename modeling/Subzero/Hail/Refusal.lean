import Subzero.Graph.Mutations
import Subzero.Hail.Ancestry
import Subzero.Hail.Voting

/-! Refused blocks. A block is written into the conflict map before its parent is looked
up, so a block without a parent stays preferred at its height although the DAG does not
have it. Where every block from outside is placed, nothing of the kind happens. -/
namespace Subzero
variable {H : Type} [LinearOrder H] [BlockDigest H] [Sortition H]
variable {w w' : HailActor H} {order : HailOrder H} {s s' : Hail H} {block : HailBlock H}

namespace Hail

/-- A block that is refused leaves the conflict map, the DAG and the store as they were. -/
def Untouched (order : HailOrder H) (s : Hail H) (block : HailBlock H) : Prop :=
  ∀ e s', s.onReceiveBlock order block = .err e s' →
    s'.conflictMap = s.conflictMap ∧ s'.dag = s.dag ∧ s'.knownBlocks = s.knownBlocks

/-- The block is known, or in the DAG, or its parent is itself or in the DAG, if it has one. -/
def Placed (s : Hail H) (block : HailBlock H) : Prop :=
  block.hash ∈ s.knownBlocks ∨ block.vertex ∈ s.dag.g ∨
    ∀ p ∈ block.parent, p = block.vertex ∨ p ∈ s.dag.g

instance (s : Hail H) (block : HailBlock H) : Decidable (s.Placed block) :=
  inferInstanceAs (Decidable (block.hash ∈ s.knownBlocks ∨ block.vertex ∈ s.dag.g ∨
    ∀ p ∈ block.parent, p = block.vertex ∨ p ∈ s.dag.g))

/-- The conflict map has the vertices of the DAG and no others. -/
structure Intact (s : Hail H) : Prop where
  dag : s.dag.Representation
  chits : ∀ v ∈ s.dag.chits, v ∈ s.dag.g
  entered : ∀ v, v ∈ s.dag.g ↔
    ∃ cs, s.conflictMap.lookup v.height = some cs ∧ v.blockHash ∈ cs.conflicts
  members : ∀ h cs, s.conflictMap.lookup h = some cs → cs.pref ∈ cs.conflicts ∧
    cs.last ∈ cs.conflicts

section Insertion
omit [Sortition H]
variable {order : HailOrder H} {s s' : Hail H} {block : HailBlock H}

theorem insert_fresh (fresh : block.vertex ∉ s.dag.g) :
    s.insert order block =
      if block.parent = none ∧ block.vertex.height ≠ 0 then .err (.invalidBlock block.block) s
      else (s.dag.insertVx block.vertex block.parent.toList).lift .graph fun d =>
        { s with conflictMap := s.conflictMap.insertBlock order.hashes block.block, dag := d } := by
  unfold insert
  simp only [fresh, if_false]
  cases block.parent with
  | some p => simp
  | none => by_cases zero : block.vertex.height = 0 <;> simp [zero]

/-- In an intact state a refusal leaves no trace exactly for a block that is placed. -/
theorem Intact.untouched_iff (intact : s.Intact) :
    s.Untouched order block ↔ s.Placed block := by
  have transposed := intact.dag.transposed
  by_cases known : block.hash ∈ s.knownBlocks
  · refine iff_of_true (fun e s' failed => ?_) (.inl known)
    rw [onReceiveBlock, if_pos known] at failed
    contradiction
  by_cases present : block.vertex ∈ s.dag.g
  · refine iff_of_true (fun e s' failed => ?_) (.inr (.inl present))
    simp only [onReceiveBlock, known, if_false, insert, present, if_true] at failed
    contradiction
  have received : s.onReceiveBlock order block = (s.insert order block).bind fun _ s =>
      .ok true { s with knownBlocks := s.knownBlocks.insert block.hash block } := if_neg known
  rw [insert_fresh present] at received
  by_cases orphan : block.parent = none ∧ block.vertex.height ≠ 0
  · rw [if_pos orphan] at received
    refine iff_of_true (fun e s' failed => ?_) (.inr (.inr (by simp [orphan.1])))
    rw [received] at failed
    cases failed
    exact ⟨rfl, rfl, rfl⟩
  rw [if_neg orphan] at received
  have unchitted : s.dag.chits.lookup block.vertex ≠ some 1 := fun one =>
    present (intact.chits _ (Finmap.mem_of_lookup_eq_some one))
  by_cases inside : ∀ p ∈ block.parent, p = block.vertex ∨ p ∈ s.dag.g
  · obtain ⟨d, taken⟩ := DAG.insertVx_taken transposed present
      (fun p listed => inside p (Option.mem_toList.mp listed)) unchitted
    refine iff_of_true (fun e s' failed => ?_) (.inr (.inr inside))
    rw [received, taken] at failed
    contradiction
  · refine iff_of_false (fun untouched => ?_) fun placed =>
      placed.elim known fun rest => rest.elim present inside
    have broken : ¬ DAG.Atomic s.dag (.insertVx block.vertex block.parent.toList) := by
      rw [DAG.insertVx_atomic_fresh transposed present]
      exact fun both => inside fun p named => both.1 p (Option.mem_toList.mpr named)
    refine broken fun e d' failed => ?_
    rw [DAG.mutate] at failed
    rw [failed] at received
    exact (untouched _ _ received).2.1

/-- What an insertion that returns does. -/
theorem insert_ok (done : s.insert order block = .ok () s') :
    s' = s ∨ DAG.Inserted block.vertex block.parent.toList s.dag s'.dag ∧
      s'.conflictMap = s.conflictMap.insertBlock order.hashes block.block := by
  by_cases present : block.vertex ∈ s.dag.g
  · simp only [insert, present, if_true] at done
    cases done
    exact .inl rfl
  · rw [insert_fresh present] at done
    split at done
    · contradiction
    · obtain ⟨d, inserted, rfl⟩ := Outcome.lift_eq_ok.mp done
      exact .inr ⟨DAG.insertVx_inserted inserted, rfl⟩

theorem insertBlock_listed_iff {order : Listing H} {m : ConflictMap H} {block : Block H}
    {v : Vertex H} :
    (∃ cs, (m.insertBlock order block).lookup v.height = some cs ∧ v.blockHash ∈ cs.conflicts) ↔
      v = block.vertex ∨ ∃ cs, m.lookup v.height = some cs ∧ v.blockHash ∈ cs.conflicts := by
  refine ⟨?_, insertBlock_listed⟩
  rintro ⟨cs, found, listed⟩
  rw [ConflictMap.insertBlock_lookup] at found
  split at found
  · rename_i here
    cases found
    have own : v.blockHash = block.hash → v = block.vertex := fun hash => by
      obtain ⟨height, blockHash⟩ := v
      cases here
      cases hash
      rfl
    split at listed
    · rename_i old known
      rw [ConflictSet.insertHash_conflicts, Finset.mem_insert] at listed
      exact listed.imp own fun member => ⟨old, here ▸ known, member⟩
    · exact .inl (own (Finset.mem_singleton.mp listed))
  · exact .inr ⟨cs, found, listed⟩

theorem Intact.insert (intact : s.Intact) (done : s.insert order block = .ok () s') :
    s'.Intact := by
  rcases insert_ok done with rfl | ⟨ins, map⟩
  · exact intact
  · refine ⟨ins.representation intact.dag, fun v member => ?_, fun v => ?_, ?_⟩
    · rw [ins.chits, Finmap.mem_insert] at member
      rw [ins.g, Finmap.mem_insert]
      exact member.imp_right (intact.chits v)
    · rw [ins.g, Finmap.mem_insert, map, insertBlock_listed_iff, intact.entered]
      rfl
    · rw [map]
      exact insertBlock_members intact.members

end Insertion

omit [BlockDigest H] [Sortition H] in
theorem Intact.of_same (intact : s.Intact) (map : s'.conflictMap = s.conflictMap)
    (dag : s'.dag = s.dag) : s'.Intact := by
  obtain ⟨rep, chits, entered, members⟩ := intact
  rw [← dag] at rep chits
  rw [← map] at members
  exact ⟨rep, chits, fun v => by rw [map, dag]; exact entered v, members⟩

omit [Sortition H] in
theorem Intact.received (intact : s.Intact) (untouched : s.Untouched order block)
    (left : (s.onReceiveBlock order block).state? = some s') : s'.Intact := by
  cases result : s.onReceiveBlock order block with
  | panic =>
    rw [result] at left
    contradiction
  | err e t =>
    rw [result] at left
    cases left
    obtain ⟨map, dag, _⟩ := untouched e s' result
    exact intact.of_same map dag
  | ok new t =>
    rw [result] at left
    cases left
    unfold onReceiveBlock at result
    split at result
    · cases result
      exact intact
    · obtain ⟨_, t, inserted, stored⟩ := Outcome.bind_eq_ok.mp result
      cases stored
      exact (intact.insert inserted).of_same rfl rfl

omit [Sortition H] in
theorem Intact.votes (intact : s.Intact) (present : block.vertex ∈ s.dag.g)
    (votes : s.Votes block s') : s'.Intact := by
  have linked := intact.dag.transposed.mirrored.toLinked
  have tally := votes.tally
  rw [setChit_dfs votes.chit] at tally
  obtain ⟨_, dag⟩ := DAG.setChit_ok.mp votes.chit
  have g : s'.dag.g = s.dag.g := by rw [dag]
  refine ⟨?_, fun v member => ?_, fun v => ?_, ?_⟩
  · refine intact.dag.mutate (m := .setChit block.vertex 1) ?_
    rw [DAG.mutateOk, DAG.mutate, votes.chit]
    rfl
  · rw [dag, Finmap.mem_insert] at member
    rw [g]
    rcases member with rfl | member
    · exact present
    · exact intact.chits v member
  · have view : ∀ m : ConflictMap H,
        (∃ cs, m.lookup v.height = some cs ∧ v.blockHash ∈ cs.conflicts) ↔
          ∃ l ∈ (m.lookup v.height).map ConflictSet.conflicts, v.blockHash ∈ l := by
      intro m
      cases m.lookup v.height <;> simp
    rw [g, intact.entered, view, view, tally.conflicts v.height]
  · refine tally.members (fun v listed cs known => ?_) intact.members
    obtain ⟨cs', known', member⟩ := (intact.entered v).mp (DAG.dfs_mem listed)
    cases Option.some.inj (known.symm.trans known')
    exact member

omit [BlockDigest H] [Sortition H] in
theorem Intact.preferred (intact : s.Intact) {h : BlockHeight} {cs : ConflictSet H}
    (found : s.conflictMap.lookup h = some cs) : ⟨h, cs.pref⟩ ∈ s.dag.g :=
  (intact.entered ⟨h, cs.pref⟩).mpr ⟨cs, found, (intact.members h cs found).1⟩

omit [BlockDigest H] [Sortition H] in
/-- The votes for vertices of the DAG can be counted if every conviction can be, as long as
the preferred blocks are in the DAG. They are then in it after every vote. -/
theorem tally_total {d : DAG (Vertex H)} {vxs : List (Vertex H)} {m : ConflictMap H}
    (convictions : ∀ v ∈ d.g, ∃ c, d.conviction v = some (.ok c)) (inside : ∀ v ∈ vxs, v ∈ d.g)
    (entered : ∀ v ∈ d.g, v.height ∈ m)
    (preferred : ∀ h cs, m.lookup h = some cs → ⟨h, cs.pref⟩ ∈ d.g) :
    ∃ m', Tally d vxs m m' := by
  induction vxs generalizing m with
  | nil => exact ⟨m, .done⟩
  | cons v vxs ih =>
    have here := inside v List.mem_cons_self
    obtain ⟨cs, found⟩ := Finmap.mem_iff.mp (entered v here)
    obtain ⟨d1, first⟩ := convictions v here
    obtain ⟨d2, second⟩ := convictions _ (preferred _ cs found)
    have next : ∃ m', Tally d vxs (m.insert v.height (cs.voteFor v.blockHash d1 d2)) m' := by
      refine ih (fun u later => inside u (List.mem_cons_of_mem v later)) (fun u member => ?_)
        fun h cs' known => ?_
      · exact Finmap.mem_insert.mpr (.inr (entered u member))
      · rw [HashMap.lookup_insert_ite] at known
        split at known
        · rename_i same
          cases known
          rw [same, ConflictSet.voteFor_pref]
          split
          · exact here
          · exact preferred _ cs found
        · exact preferred h cs' known
    obtain ⟨m', tally⟩ := next
    exact ⟨m', .vote found first second tally⟩

omit [BlockDigest H] [Sortition H] in
theorem Intact.updates (intact : s.Intact) (light : ∀ v ∈ s.dag.g, s.dag.weight v < 2 ^ 8)
    {root : Vertex H} : ∃ s', s.updateAncestralPreference root = .ok () s' := by
  have mirrored := intact.dag.transposed.mirrored
  have convictions : ∀ v ∈ s.dag.g, ∃ c, s.dag.conviction v = some (.ok c) := by
    intro v present
    refine ⟨s.dag.weight v, ?_⟩
    rw [mirrored.conviction_eq (mirrored.entry v present) fun x member =>
      intact.dag.chit x (mirrored.progeny_mem present member), if_pos (light v present)]
  have entered : ∀ v ∈ s.dag.g, v.height ∈ s.conflictMap := by
    intro v present
    obtain ⟨cs, found, _⟩ := (intact.entered v).mp present
    exact Finmap.mem_of_lookup_eq_some found
  obtain ⟨m, tally⟩ := tally_total convictions (fun v listed => DAG.dfs_mem listed) entered
    (fun _ _ => intact.preferred)
  exact ⟨_, forEach_tally.mpr ⟨m, tally, rfl⟩⟩

end Hail

/-- The block that a message is about, if its query is under way. -/
def HailMessage.block? : HailMessage H → Option (HailBlock H)
  | .queryIncomplete block _ => some block
  | .queryComplete block _ => some block
  | .freshBlock block => some block
  | .accepted _ => none
  | .generateBlock _ => none

namespace HailActor

/-- The blocks whose queries are under way. -/
def underway (w : HailActor H) : List (HailBlock H) :=
  w.mailbox.filterMap HailMessage.block? ++ w.requests.map BlockQuery.block

omit [LinearOrder H] [BlockDigest H] [Sortition H] in
theorem mem_underway {b : HailBlock H} :
    b ∈ w.underway ↔ (∃ m ∈ w.mailbox, m.block? = some b) ∨ ∃ q ∈ w.requests, q.block = b := by
  rw [underway, List.mem_append, List.mem_filterMap, List.mem_map]

omit [LinearOrder H] [BlockDigest H] [Sortition H] in
theorem mem_underway_notify {ms : List (HailMessage H)} {b : HailBlock H} :
    b ∈ (w.notify ms).underway ↔ b ∈ w.underway ∨ ∃ m ∈ ms, m.block? = some b := by
  simp only [mem_underway, notify, List.mem_append, or_and_right, exists_or]
  exact or_right_comm

omit [Sortition H] in
theorem onReceiveBlock_new (done : s.onReceiveBlock order block = .ok true s') :
    block.vertex ∈ s'.dag.g := by
  unfold Hail.onReceiveBlock at done
  split at done
  · cases done
  · obtain ⟨_, t, inserted, stored⟩ := Outcome.bind_eq_ok.mp done
    cases stored
    have present := Hail.insert_vertex inserted
    exact present

omit [Sortition H] in
theorem queryBlock_new {outcome : Bool}
    (received : s.queryBlock order block = some (true, outcome, s')) : block.vertex ∈ s'.dag.g := by
  simp only [Hail.queryBlock] at received
  split at received
  · rename_i new t done
    split at received <;> cases received <;> exact onReceiveBlock_new done
  · split at received <;> cases received
  · contradiction

omit [Sortition H] in
theorem generateBlock_new {block : Block H} {made : HailBlock H}
    (generated : s.generateBlock order block = some (true, made, s')) : made.vertex ∈ s'.dag.g := by
  unfold Hail.generateBlock at generated
  split at generated
  · contradiction
  · contradiction
  · simp only at generated
    split at generated
    · rename_i done
      cases generated
      exact onReceiveBlock_new done
    · cases generated
    · contradiction

omit [LinearOrder H] [Sortition H] in
/-- A query is started for a block that was taken into the DAG by the same step. -/
theorem notify_underway {new : Bool} (enters : new = true → block.vertex ∈ w.hail.dag.g) :
    ∀ b ∈ (w.notify (if new then [.freshBlock block] else [])).underway,
      b ∈ w.underway ∨ b.vertex ∈ w.hail.dag.g := by
  intro b member
  rcases mem_underway_notify.mp member with old | ⟨m, posted, about⟩
  · exact .inl old
  · cases new with
    | false => simp at posted
    | true =>
      obtain rfl : m = .freshBlock block := by simpa using posted
      cases about
      exact .inr (enters rfl)

omit [Sortition H] in
theorem onGenerateBlock_underway {block : Block H}
    (taken : w.onGenerateBlock order block = some w') :
    ∀ b ∈ w'.underway, b ∈ w.underway ∨ b.vertex ∈ w'.hail.dag.g := by
  obtain ⟨⟨new, made, s⟩, generated, rfl⟩ := Option.map_eq_some_iff.mp taken
  apply notify_underway
  rintro rfl
  exact generateBlock_new generated

/-- The query of a fresh block goes from the mailbox to the requests. -/
theorem handle_underway {i : Nat} {m : HailMessage H} (there : m ∈ w.mailbox)
    (taken : { w with mailbox := w.mailbox.eraseIdx i }.handle order m = some w') :
    ∀ b ∈ w'.underway, b ∈ w.underway ∨ b.vertex ∈ w'.hail.dag.g := by
  have erased : ∀ b, b ∈ { w with mailbox := w.mailbox.eraseIdx i }.underway → b ∈ w.underway := by
    intro b member
    rw [mem_underway] at member ⊢
    refine member.imp_left ?_
    rintro ⟨m', listed, about⟩
    exact ⟨m', List.mem_of_mem_eraseIdx listed, about⟩
  cases m with
  | queryIncomplete block acks =>
    cases taken
    exact fun b member => .inl (erased b member)
  | queryComplete block acks =>
    obtain ⟨⟨accepted, s⟩, _, rfl⟩ := Option.map_eq_some_iff.mp taken
    intro b member
    rcases mem_underway_notify.mp member with old | ⟨m', posted, about⟩
    · exact .inl (erased b old)
    · obtain ⟨vertex, _, rfl⟩ := List.mem_map.mp posted
      cases about
  | accepted vertex =>
    cases taken
    exact fun b member => .inl (erased b member)
  | freshBlock block =>
    simp only [handle, onFreshBlock] at taken
    split at taken
    · contradiction
    · cases taken
      intro b member
      rw [mem_underway] at member
      refine .inl ?_
      rcases member with ⟨m', listed, about⟩ | ⟨q, listed, about⟩
      · exact erased b (mem_underway.mpr (.inl ⟨m', listed, about⟩))
      · rcases List.mem_append.mp listed with old | new
        · exact mem_underway.mpr (.inr ⟨q, old, about⟩)
        · obtain rfl := List.mem_singleton.mp new
          exact mem_underway.mpr (.inl ⟨_, there, congrArg some about⟩)
  | generateBlock block =>
    exact fun b member => (onGenerateBlock_underway taken b member).imp_left (erased b)

omit [LinearOrder H] [BlockDigest H] [Sortition H] in
/-- The query of an answered request goes back to the mailbox. -/
theorem onReply_underway {i : Nat} {q : BlockQuery H} {response : Option (BlockReply H)}
    (there : q ∈ w.requests)
    (taken : { w with requests := w.requests.eraseIdx i }.onReply q response = some w') :
    ∀ b ∈ w'.underway, b ∈ w.underway := by
  have erased : ∀ b, b ∈ { w with requests := w.requests.eraseIdx i }.underway →
      b ∈ w.underway := by
    intro b member
    rw [mem_underway] at member ⊢
    refine member.imp_right ?_
    rintro ⟨q', listed, about⟩
    exact ⟨q', List.mem_of_mem_eraseIdx listed, about⟩
  have posts : ∀ (m : HailMessage H) (b : HailBlock H), m.block? = some q.block →
      b ∈ ({ w with requests := w.requests.eraseIdx i }.notify [m]).underway →
        b ∈ w.underway := by
    intro m b about member
    rcases mem_underway_notify.mp member with old | ⟨m', posted, about'⟩
    · exact erased b old
    · obtain rfl := List.mem_singleton.mp posted
      cases Option.some.inj (about.symm.trans about')
      exact mem_underway.mpr (.inr ⟨q, there, rfl⟩)
  cases response with
  | none =>
    cases taken
    exact erased
  | some r =>
    cases r with
    | oneshot => contradiction
    | fanout acks =>
      simp only [onReply] at taken
      split at taken <;> cases taken <;> exact fun b => posts _ b rfl

theorem underway_step {e : HailEvent H} (taken : w.step (order, e) = some w') :
    ∀ b ∈ w'.underway, b ∈ w.underway ∨ b.vertex ∈ w'.hail.dag.g := by
  cases e with
  | liveCommittee msg =>
    obtain ⟨s, _, rfl⟩ := Option.map_eq_some_iff.mp taken
    exact fun b member => .inl member
  | queryBlock block =>
    obtain ⟨⟨new, outcome, s⟩, received, rfl⟩ := Option.map_eq_some_iff.mp taken
    apply notify_underway
    rintro rfl
    exact queryBlock_new received
  | generateBlock block => exact onGenerateBlock_underway taken
  | acceptedCells cells =>
    obtain ⟨⟨block, s⟩, _, rfl⟩ := Option.map_eq_some_iff.mp taken
    intro b member
    rcases mem_underway_notify.mp member with old | ⟨m, posted, about⟩
    · exact .inl old
    · obtain ⟨made, _, rfl⟩ := List.mem_map.mp posted
      cases about
  | deliver i =>
    simp only [step] at taken
    split at taken
    · contradiction
    · rename_i m found
      exact handle_underway (List.mem_of_getElem? found) taken
  | reply i response =>
    simp only [step] at taken
    split at taken
    · contradiction
    · rename_i q found
      exact fun b member => .inl (onReply_underway (List.mem_of_getElem? found) taken b member)

/-- The block that an event hands to `on_receive_block`. -/
inductive Receives (order : HailOrder H) (w : HailActor H) : Task H → HailBlock H → Prop where
  | receive (block : HailBlock H) : Receives order w (.receive block) block
  | generate {block : Block H} {parent : Vertex H} :
      w.hail.selectParent order block.height = some (.ok parent) →
      Receives order w (.generate block) ⟨some parent, block⟩

/-- If the event hands on a block that is refused, nothing has changed. -/
def Clean (w : HailActor H) (x : HailOrder H × HailEvent H) : Prop :=
  ∀ block, Receives x.1 w (w.task x.2) block → w.hail.Untouched x.1 block

/-- The condition on a step: blocks from outside are placed. -/
def Task.Placed (s : Hail H) : Task H → Prop
  | .receive block => s.Placed block
  | _ => True

instance (s : Hail H) : (t : Task H) → Decidable (t.Placed s)
  | .receive block => inferInstanceAs (Decidable (s.Placed block))
  | .join _ | .generate _ | .propose _ | .complete _ _ | .idle => isTrue trivial

/-- What holds while no refusal has left a trace. -/
structure Intact (w : HailActor H) : Prop where
  hail : w.hail.Intact
  queried : ∀ b ∈ w.underway, b.vertex ∈ w.hail.dag.g

omit [Sortition H] in
/-- A generated block has a parent in the DAG. -/
theorem Intact.clean_iff (intact : w.Intact) (x : HailOrder H × HailEvent H) :
    Clean w x ↔ (w.task x.2).Placed w.hail := by
  unfold Clean
  generalize w.task x.2 = t
  constructor
  · intro clean
    cases t with
    | receive block => exact intact.hail.untouched_iff.mp (clean block (.receive block))
    | join | generate | propose | complete | idle => trivial
  · intro placed block receives
    refine intact.hail.untouched_iff.mpr ?_
    cases receives with
    | receive block => exact placed
    | generate selected =>
      refine .inr (.inr fun p named => .inr ?_)
      cases named
      exact (Hail.selectParent_spec selected).1

omit [LinearOrder H] [BlockDigest H] [Sortition H] in
theorem task_complete {e : HailEvent H} {acks : List (BlockResponse H)}
    (named : w.task e = .complete block acks) : block ∈ w.underway := by
  cases e with
  | deliver i =>
    simp only [task] at named
    split at named
    · rename_i found
      cases named
      exact mem_underway.mpr (.inl ⟨_, List.mem_of_getElem? found, rfl⟩)
    · cases named
    · cases named
  | liveCommittee | queryBlock | generateBlock | acceptedCells | reply => cases named

theorem Does.grows {t : Task H} (does : Does order w t w') :
    ∀ v ∈ w.hail.dag.g, v ∈ w'.hail.dag.g := by
  rcases does.blocks with same | ⟨block, _, adds⟩ | ⟨_, _, _, _, votes⟩
  · rw [same.dag]
    exact fun _ member => member
  · exact fun v => adds.mem.1
  · rw [(DAG.setChit_edges (congrArg Outcome.state? votes.chit)).1]
    exact fun _ member => member

theorem Intact.step {e : HailEvent H} (intact : w.Intact) (placed : (w.task e).Placed w.hail)
    (taken : w.step (order, e) = some w') : w'.Intact := by
  have clean := (intact.clean_iff (order, e)).mpr placed
  have fresh := underway_step taken
  have does := step_does taken
  refine ⟨?_, fun b member => ?_⟩
  · unfold Clean at clean
    have asked : ∀ block acks, w.task e = .complete block acks → block.vertex ∈ w.hail.dag.g :=
      fun block acks named => intact.queried block (task_complete named)
    simp only at clean
    revert asked clean
    generalize w.task e = t at does
    intro clean asked
    cases does with
    | join ms qs joined =>
      obtain ⟨⟨_, s⟩, inserted, rfl⟩ := Option.map_eq_some_iff.mp joined
      have done := Outcome.unwrap_eq_some.mp inserted
      refine Hail.Intact.insert ?_ done
      exact intact.hail.of_same rfl rfl
    | receive ms qs received =>
      exact intact.hail.received (clean _ (.receive _)) (Hail.queryBlock_cases received).1
    | generate ms qs generated =>
      obtain ⟨parent, selected, left⟩ := Hail.generateBlock_cases generated
      exact intact.hail.received (clean _ (.generate selected)) left
    | propose ms qs proposed =>
      rcases Hail.acceptedCells_cases proposed with ⟨_, rfl⟩ | ⟨_, rfl, _⟩
      · exact intact.hail
      · exact intact.hail.of_same rfl rfl
    | pass ms qs passes passed =>
      have voted := intact.hail.votes (asked _ _ rfl) (Hail.passQuery_votes passed).1
      exact voted.of_same rfl rfl
    | fail => exact intact.hail.of_same rfl rfl
    | idle => exact intact.hail
  · rcases fresh b member with old | new
    · exact does.grows _ (intact.queried b old)
    · exact new

omit [Sortition H] in
theorem Intact.started (nodeId : Id) : (started nodeId : HailActor H).Intact := by
  have nothing : ∀ v : Vertex H, v ∉ (∅ : HashMap (Vertex H) (List (Vertex H))) :=
    fun v => Finmap.notMem_empty
  refine ⟨⟨.new, fun v member => absurd member Finmap.notMem_empty, fun v => ?_, fun h cs => ?_⟩,
    fun b member => ?_⟩
  · exact iff_of_false (nothing v) (by simp [HailActor.started, Hail.new])
  · simp [HailActor.started, Hail.new]
  · simp [HailActor.started, underway] at member

/-- Along a run no refused block leaves a trace exactly if all blocks from outside are
placed. Then at all times the preferred block of every height is in the DAG, and the update
along the ancestry of any vertex succeeds if all convictions fit into a byte. -/
theorem refusals_untouched (nodeId : Id)
    (steps : List (HailActor H × HailOrder H × HailEvent H)) (w : HailActor H)
    (run : Run step (.started nodeId) steps w) :
    (Meets Clean steps ↔ Meets (fun w x => (w.task x.2).Placed w.hail) steps) ∧
      (Meets (fun w x => (w.task x.2).Placed w.hail) steps → ∀ u ∈ states steps w,
        (∀ h cs, u.hail.conflictMap.lookup h = some cs → ⟨h, cs.pref⟩ ∈ u.hail.dag.g) ∧
        ((∀ v ∈ u.hail.dag.g, u.hail.dag.weight v < 2 ^ 8) → ∀ v ∈ u.hail.dag.g,
          ∃ s', u.hail.updateAncestralPreference v = .ok () s')) := by
  refine ⟨run.meets_iff Clean _ Intact (.started nodeId) (fun u x v intact placed taken => ?_)
    fun u x intact => intact.clean_iff x, fun placed u state => ?_⟩
  · exact intact.step placed taken
  · have all := run.relates _ placed Intact (fun _ _ => True) (.started nodeId) (fun _ => trivial)
      (fun _ _ _ _ _ => trivial) fun u x v intact meets taken => ⟨intact.step meets taken, trivial⟩
    have intact := (all.2 u state).1.hail
    exact ⟨fun h cs => intact.preferred, fun light v _ => intact.updates light⟩

/-- A block, its child, and a block above genesis that names no parent and is refused. -/
theorem refusals_untouched_chain :
    ∃ (steps : List (HailActor Digest × HailOrder Digest × HailEvent Digest))
      (w : HailActor Digest), Run step sample steps w ∧
      w.votes.map BlockVote.block = [child genesis 1 0, child (child genesis 1 0) 2 0,
        ⟨none, blank 2 1⟩] ∧ Meets Clean steps ∧
      ∀ h cs, w.hail.conflictMap.lookup h = some cs → ⟨h, cs.pref⟩ ∈ w.hail.dag.g := by
  have found : (runSample [joins 0, .queryBlock (child genesis 1 0),
      .queryBlock (child (child genesis 1 0) 2 0), .queryBlock ⟨none, blank 2 1⟩]).any (fun r =>
        decide (r.2.votes.map BlockVote.block = [child genesis 1 0,
            child (child genesis 1 0) 2 0, ⟨none, blank 2 1⟩] ∧
          ∀ x ∈ r.1, (x.1.task x.2.2).Placed x.1.hail)) = true := by
    decide +kernel
  obtain ⟨steps, w, run, facts⟩ := exec_any found
  obtain ⟨blocks, placed⟩ := of_decide_eq_true facts
  have untouched := refusals_untouched _ steps w run
  refine ⟨steps, w, run, blocks, untouched.1.mpr placed, ?_⟩
  exact (untouched.2 placed w (by simp [states])).1

/-- A block of height one whose parent is unknown. -/
def orphan : HailBlock Digest := ⟨some (blank 5 0).vertex, blank 1 0⟩

/-- The orphan is refused, and it becomes the preferred block of its height. When a block of
the same height arrives, the update along its ancestry fails, although no block has a vote. -/
theorem refusal_leaves_phantom :
    (∃ (steps : List (HailActor Digest × HailOrder Digest × HailEvent Digest))
      (w : HailActor Digest) (e : HailError Digest) (s : Hail Digest), Run step sample steps w ∧
      w.hail.onReceiveBlock ascendingVertices orphan = .err e s ∧
      1 ∉ w.hail.conflictMap ∧ s.conflictMap.lookup 1 = some (.new orphan.hash) ∧
      orphan.vertex ∉ s.dag.g ∧ s.dag.inv ≠ w.hail.dag.inv) ∧
    ∃ (steps : List (HailActor Digest × HailOrder Digest × HailEvent Digest))
      (w : HailActor Digest) (e : HailError Digest) (s : Hail Digest), Run step sample steps w ∧
      ((child genesis 1 1).vertex ∈ w.hail.dag.g ∧
        ∀ v ∈ w.hail.dag.g.keys, w.hail.dag.weight v = 0) ∧
      w.hail.updateAncestralPreference (child genesis 1 1).vertex = .err e s := by
  constructor
  · have found : (runSample [joins 0]).any (fun r =>
        (r.2.hail.onReceiveBlock ascendingVertices orphan).error?.any fun q =>
          decide (1 ∉ r.2.hail.conflictMap ∧ q.2.conflictMap.lookup 1 = some (.new orphan.hash) ∧
            orphan.vertex ∉ q.2.dag.g ∧ q.2.dag.inv ≠ r.2.hail.dag.inv)) = true := by
      decide +kernel
    obtain ⟨steps, w, run, failed⟩ := exec_any found
    obtain ⟨⟨e, s⟩, refused, facts⟩ := (Option.any_eq_true _ _).mp failed
    exact ⟨steps, w, e, s, run, Outcome.error?_eq_some.mp refused, of_decide_eq_true facts⟩
  · have found : (runSample [joins 0, .queryBlock orphan, .queryBlock (child genesis 1 1)]).any
        (fun r => (r.2.hail.updateAncestralPreference (child genesis 1 1).vertex).error?.any
          fun _ => decide ((child genesis 1 1).vertex ∈ r.2.hail.dag.g ∧
            ∀ v ∈ r.2.hail.dag.g.keys, r.2.hail.dag.weight v = 0)) = true := by
      decide +kernel
    obtain ⟨steps, w, run, failed⟩ := exec_any found
    obtain ⟨⟨e, s⟩, refused, facts⟩ := (Option.any_eq_true _ _).mp failed
    exact ⟨steps, w, e, s, run, of_decide_eq_true facts, Outcome.error?_eq_some.mp refused⟩

end HailActor
end Subzero
