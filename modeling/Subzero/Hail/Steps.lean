import Subzero.Graph.Links
import Subzero.Hail.Actor

/-! What one step of the hail actor can do, said once. A step may add a block, count
the votes of a query, propose a block, or leave all of that alone. -/
namespace Subzero
variable {H : Type} [LinearOrder H] [BlockDigest H] [Sortition H]
variable {s s' : Hail H} {order : HailOrder H} {block : HailBlock H} {w w' : HailActor H}

namespace Hail

/-- Nothing that the finality of blocks depends on has changed. -/
structure Same (s s' : Hail H) : Prop where
  map : s'.conflictMap = s.conflictMap
  dag : s'.dag = s.dag
  accepted : s'.acceptedVertices = s.acceptedVertices

/-- The block is written into the conflict map, and the DAG takes or refuses its
vertex. -/
structure Adds (order : HailOrder H) (block : HailBlock H) (s s' : Hail H) : Prop where
  fresh : block.vertex ∉ s.dag.g
  rooted : block.parent = none → block.vertex.height = 0
  map : s'.conflictMap = s.conflictMap.insertBlock order.hashes block.block
  dag : (s.dag.insertVx block.vertex block.parent.toList).state? = some s'.dag
  accepted : s'.acceptedVertices = s.acceptedVertices

/-- The votes for the vertices of a list, one after the other. The DAG stays as it
is, so the convictions do too; the preferences they are compared with do not. -/
inductive Tally (d : DAG (Vertex H)) : List (Vertex H) → ConflictMap H → ConflictMap H → Prop where
  | done {m : ConflictMap H} : Tally d [] m m
  | vote {vx : Vertex H} {rest : List (Vertex H)} {m m' : ConflictMap H} {cs : ConflictSet H}
      {d1 d2 : Nat} : m.lookup vx.height = some cs → d.conviction vx = some (.ok d1) →
      d.conviction ⟨vx.height, cs.pref⟩ = some (.ok d2) →
      Tally d rest (m.insert vx.height (cs.voteFor vx.blockHash d1 d2)) m' →
      Tally d (vx :: rest) m m'

/-- A successful query counts, and at most one vertex becomes final. -/
structure Votes (block : HailBlock H) (s s' : Hail H) : Prop where
  chit : s.dag.setChit block.vertex 1 = .ok () s'.dag
  tally : Tally s'.dag (s'.dag.dfs block.vertex) s.conflictMap s'.conflictMap
  accepted : s'.acceptedVertices = s.acceptedVertices ∨
    ∃ vx ∈ s'.dag.dfs block.vertex, s'.isAccepted vx = .ok true ∧
      s'.acceptedVertices = Insert.insert vx s.acceptedVertices

omit [LinearOrder H] [BlockDigest H] [Sortition H] in
theorem Same.refl (s : Hail H) : Same s s := ⟨rfl, rfl, rfl⟩

omit [Sortition H] in
/-- An insertion adds the block, or finds it or refuses it without a trace. -/
theorem insert_cases (left : (s.insert order block).state? = some s') :
    (s' = s ∧ (block.vertex ∈ s.dag.g ∨
      block.parent = none ∧ block.vertex.height ≠ 0)) ∨
    Adds order block s s' ∧ s'.committee = s.committee ∧
      s'.height = s.height ∧ s'.lastAcceptedHash = s.lastAcceptedHash := by
  unfold insert at left
  by_cases present : block.vertex ∈ s.dag.g
  · simp only [present, if_true, Outcome.state?_ok, Option.some.injEq] at left
    exact .inl ⟨left.symm, .inl present⟩
  · simp only [present, if_false] at left
    cases named : block.parent with
    | some parent =>
      simp only [named, Outcome.state?_lift, Option.map_eq_some_iff] at left
      obtain ⟨d, inserted, rfl⟩ := left
      exact .inr ⟨⟨present, by simp [named], rfl, by simpa [named] using inserted, rfl⟩,
        rfl, rfl, rfl⟩
    | none =>
      by_cases zero : block.vertex.height = 0
      · simp only [named, zero, if_true, Outcome.state?_lift, Option.map_eq_some_iff] at left
        obtain ⟨d, inserted, rfl⟩ := left
        exact .inr ⟨⟨present, fun _ => zero, rfl, by simpa [named] using inserted, rfl⟩,
          rfl, rfl, rfl⟩
      · simp only [named, zero, if_false, Outcome.state?_err, Option.some.injEq] at left
        exact .inl ⟨left.symm, .inr ⟨rfl, zero⟩⟩

omit [Sortition H] in
theorem onReceiveBlock_cases (left : (s.onReceiveBlock order block).state? = some s') :
    (Same s s' ∨ Adds order block s s') ∧ s'.committee = s.committee ∧
      s'.height = s.height ∧ s'.lastAcceptedHash = s.lastAcceptedHash := by
  unfold onReceiveBlock at left
  split at left
  · cases left
    exact ⟨.inl (.refl s), rfl, rfl, rfl⟩
  · -- storing the block touches nothing that is asked for here
    have inner : ∃ t, (s.insert order block).state? = some t ∧ Same t s' ∧
        s'.committee = t.committee ∧ s'.height = t.height ∧
        s'.lastAcceptedHash = t.lastAcceptedHash := by
      cases inserted : s.insert order block with
      | ok _ t =>
        rw [inserted] at left
        cases left
        exact ⟨t, rfl, ⟨rfl, rfl, rfl⟩, rfl, rfl, rfl⟩
      | err _ t =>
        rw [inserted] at left
        cases left
        exact ⟨s', rfl, .refl s', rfl, rfl, rfl⟩
      | panic => rw [inserted] at left; cases left
    obtain ⟨t, inserted, same, committee, height, last⟩ := inner
    rcases insert_cases inserted with ⟨rfl, _⟩ | ⟨adds, committee', height', last'⟩
    · exact ⟨.inl same, committee, height, last⟩
    · refine ⟨.inr ⟨adds.fresh, adds.rooted, same.map.trans adds.map, same.dag ▸ adds.dag,
        same.accepted.trans adds.accepted⟩, committee.trans committee', height.trans height',
        last.trans last'⟩

omit [BlockDigest H] [Sortition H] in
theorem updatePreference_ok {vx : Vertex H} {u : Unit} :
    updatePreference vx s = .ok u s' ↔ ∃ cs d1 d2, s.conflictMap.lookup vx.height = some cs ∧
      s.dag.conviction vx = some (.ok d1) ∧
      s.dag.conviction ⟨vx.height, cs.pref⟩ = some (.ok d2) ∧
      s' = { s with
        conflictMap := s.conflictMap.insert vx.height (cs.voteFor vx.blockHash d1 d2) } := by
  unfold updatePreference ConflictMap.getPreferred ConflictMap.updateConflictSet
    ConflictMap.getSet
  cases s.conflictMap.lookup vx.height with
  | none => simp [Except.map]
  | some cs =>
    simp only [Except.map]
    cases s.dag.conviction vx with
    | none => simp
    | some r =>
      cases r with
      | error e => simp
      | ok d1 =>
        cases second : s.dag.conviction ⟨vx.height, cs.pref⟩ with
        | none => simp [second]
        | some r =>
          cases r with
          | error e => simp [second]
          | ok d2 => simp [second, eq_comm]

omit [BlockDigest H] [Sortition H] in
theorem forEach_tally {vxs : List (Vertex H)} :
    Outcome.forEach updatePreference vxs s = .ok () s' ↔
      ∃ m, Tally s.dag vxs s.conflictMap m ∧ s' = { s with conflictMap := m } := by
  induction vxs generalizing s with
  | nil =>
    constructor
    · intro h
      cases h
      exact ⟨_, .done, rfl⟩
    · rintro ⟨m, tally, rfl⟩
      cases tally
      rfl
  | cons vx vxs ih =>
    simp only [Outcome.forEach, Outcome.bind_eq_ok, updatePreference_ok]
    constructor
    · rintro ⟨_, _, ⟨cs, d1, d2, found, first, second, rfl⟩, rest⟩
      obtain ⟨m, tally, rfl⟩ := ih.mp rest
      exact ⟨m, .vote found first second tally, rfl⟩
    · rintro ⟨m, tally, rfl⟩
      cases tally with
      | vote found first second tally =>
        exact ⟨(), _, ⟨_, _, _, found, first, second, rfl⟩, ih.mpr ⟨m, tally, rfl⟩⟩

omit [BlockDigest H] [Sortition H] in
theorem firstAccepted_some {vxs : List (Vertex H)} {vx : Vertex H}
    (found : s.firstAccepted vxs = .ok (some vx)) : vx ∈ vxs ∧ s.isAccepted vx = .ok true := by
  induction vxs with
  | nil => cases found
  | cons v vxs ih =>
    unfold firstAccepted at found
    split at found
    · exact (ih found).imp (List.mem_cons_of_mem v) id
    · split at found
      · cases found
      · rename_i accepted
        cases found
        exact ⟨List.mem_cons_self, accepted⟩
      · exact (ih found).imp (List.mem_cons_of_mem v) id

omit [LinearOrder H] [BlockDigest H] [Sortition H] in
theorem setChit_dfs [DecidableEq H] {d d' : DAG (Vertex H)} {vx : Vertex H} {chit : Nat}
    (done : d.setChit vx chit = .ok () d') (v : Vertex H) : d'.dfs v = d.dfs v := by
  have g := (DAG.setChit_edges (congrArg Outcome.state? done)).1
  rw [DAG.dfs, DAG.dfs, g]

omit [BlockDigest H] [Sortition H] in
theorem allAccepted_same (map : s'.conflictMap = s.conflictMap) (vxs : List (Vertex H)) :
    s'.allAccepted vxs = s.allAccepted vxs := by
  induction vxs with
  | nil => rfl
  | cons vx vxs ih => simp only [allAccepted, isAcceptedBlock, map, ih]

omit [BlockDigest H] [Sortition H] in
theorem isAccepted_same (map : s'.conflictMap = s.conflictMap) (dag : s'.dag = s.dag)
    (vx : Vertex H) : s'.isAccepted vx = s.isAccepted vx := by
  simp only [isAccepted, isAcceptedBlock, allAccepted_same map, dag, map]

/-- A successful query counts, makes its block the tip and starts a new slot. -/
theorem passQuery_votes {accepted : Option (Vertex H)}
    (passed : s.passQuery order block = some (accepted, s')) :
    Votes block s s' ∧ s'.height = block.vertex.height ∧ s'.lastAcceptedHash = some block.hash ∧
      s'.committee.blockProposed = false ∧ s'.knownBlocks = s.knownBlocks := by
  unfold passQuery at passed
  split at passed
  · cases passed
  · rename_i d chit
    have chit := Outcome.unwrap_eq_some.mp chit
    split at passed
    · cases passed
    · rename_i t updated
      have updated := Outcome.unwrap_eq_some.mp updated
      obtain ⟨m, tally, rfl⟩ := forEach_tally.mp updated
      unfold nextAcceptedVertex at passed
      cases first : firstAccepted ({ s with dag := d, conflictMap := m }.advance order block)
          (({ s with dag := d, conflictMap := m }.advance order block).dag.dfs block.vertex) with
      | error e =>
        rw [first] at passed
        cases passed
      | ok found =>
        rw [first] at passed
        cases found with
        | none =>
          cases passed
          exact ⟨⟨chit, tally, .inl rfl⟩, rfl, rfl, rfl, rfl⟩
        | some vx =>
          cases passed
          obtain ⟨member, final⟩ := firstAccepted_some first
          refine ⟨⟨chit, tally, .inr ⟨vx, member, ?_, rfl⟩⟩, rfl, rfl, rfl, rfl⟩
          rw [← final]
          apply isAccepted_same <;> rfl

omit [Sortition H] in
/-- The vote on a block says yes only if the block is strongly preferred. -/
theorem queryBlock_cases {new outcome : Bool}
    (received : s.queryBlock order block = some (new, outcome, s')) :
    (s.onReceiveBlock order block).state? = some s' ∧
      (outcome = true → s'.isStronglyPreferred block.vertex = .ok true) := by
  simp only [queryBlock] at received
  cases inserted : s.onReceiveBlock order block with
  | ok _ t =>
    simp only [inserted] at received
    split at received <;> cases received
    · exact ⟨rfl, fun yes => by simp_all⟩
    · exact ⟨rfl, fun yes => by cases yes⟩
  | err _ t =>
    simp only [inserted] at received
    split at received <;> cases received
    · exact ⟨rfl, fun yes => by simp_all⟩
    · exact ⟨rfl, fun yes => by cases yes⟩
  | panic => simp [inserted] at received

omit [Sortition H] in
theorem generateBlock_cases {block : Block H} {made : HailBlock H} {new : Bool}
    (generated : s.generateBlock order block = some (new, made, s')) :
    ∃ parent, s.selectParent order block.height = some (.ok parent) ∧
      (s.onReceiveBlock order ⟨some parent, block⟩).state? = some s' := by
  unfold generateBlock at generated
  split at generated
  · cases generated
  · cases generated
  · rename_i parent selected
    refine ⟨parent, selected, ?_⟩
    cases inserted : s.onReceiveBlock order ⟨some parent, block⟩ <;> simp_all

omit [BlockDigest H] [Sortition H] in
theorem candidates_spec {h : BlockHeight} {vxs found : List (Vertex H)}
    (ok : s.candidates h vxs = .ok found) {p : Vertex H} (member : p ∈ found) :
    p ∈ vxs ∧ s.isStronglyPreferred p = .ok true ∧ p.height = h - 1 := by
  induction vxs generalizing found with
  | nil =>
    cases ok
    cases member
  | cons v vxs ih =>
    unfold candidates at ok
    split at ok
    · cases ok
    · rename_i preferred decided
      cases rest : s.candidates h vxs with
      | error e => simp [rest, Except.map] at ok
      | ok more =>
        simp only [rest, Except.map, Except.ok.injEq] at ok
        split at ok
        · rename_i chosen
          subst ok
          rcases List.mem_cons.mp member with rfl | member
          · exact ⟨List.mem_cons_self, by rw [decided, chosen.1], chosen.2⟩
          · exact (ih rest member).imp (List.mem_cons_of_mem v) id
        · subst ok
          exact (ih rest member).imp (List.mem_cons_of_mem v) id

theorem lowest_mem {H : Type} [LinearOrder H] (vxs : List (Vertex H)) (first : Vertex H) :
    vxs.foldl (fun v vi => if vi.blockHash < v.blockHash then vi else v) first ∈ first :: vxs := by
  induction vxs generalizing first with
  | nil => exact List.mem_cons_self
  | cons v vxs ih =>
    rw [List.foldl_cons]
    rcases List.mem_cons.mp (ih (if v.blockHash < first.blockHash then v else first)) with eq | h
    · rw [eq]
      split
      · exact List.mem_cons_of_mem _ List.mem_cons_self
      · exact List.mem_cons_self
    · exact List.mem_cons_of_mem _ (List.mem_cons_of_mem _ h)

omit [BlockDigest H] [Sortition H] in
/-- The parent of a generated block is a strongly preferred vertex one below it. -/
theorem selectParent_spec {h : BlockHeight} {p : Vertex H}
    (selected : s.selectParent order h = some (.ok p)) :
    p ∈ s.dag.g ∧ s.isStronglyPreferred p = .ok true ∧ p.height = h - 1 := by
  unfold selectParent at selected
  split at selected
  · cases selected
  · split at selected
    · cases selected
    · cases selected
    · rename_i first vxs ok
      cases selected
      obtain ⟨listed, preferred, height⟩ := candidates_spec ok (lowest_mem vxs first)
      obtain ⟨leaf, _, walked⟩ := List.mem_flatMap.mp listed
      exact ⟨DAG.dfs_mem walked, preferred, height⟩

omit [BlockDigest H] [Sortition H] [LinearOrder H] in
/-- A proposal is one above the tip, and is made at most once until the slot is
opened again. -/
theorem acceptedCells_cases {cells : List (Cell H)} {block : Option (Block H)}
    (proposed : s.acceptedCells cells = some (block, s')) :
    (block = none ∧ s' = s) ∨ s.committee.blockProposed = false ∧
      s' = { s with committee := { s.committee with blockProposed := true } } ∧
      ∃ b : Block H, block = some b ∧ b.height = s.height + 1 := by
  unfold acceptedCells at proposed
  split at proposed
  · cases proposed
    exact .inl ⟨rfl, rfl⟩
  · split at proposed
    · cases proposed
      exact .inl ⟨rfl, rfl⟩
    · rename_i open_slot
      split at proposed
      · cases proposed
      · cases proposed
        exact .inr ⟨by simpa using open_slot, rfl, _, rfl, rfl⟩

end Hail

namespace HailActor

/-- What an event asks of the state. -/
inductive Task (H : Type) where
  | join (msg : LiveCommittee H)
  | receive (block : HailBlock H)
  | generate (block : Block H)
  | propose (cells : List (Cell H))
  | complete (block : HailBlock H) (acks : List (BlockResponse H))
  | idle

def task (w : HailActor H) : HailEvent H → Task H
  | .liveCommittee msg => .join msg
  | .queryBlock block => .receive block
  | .generateBlock block => .generate block
  | .acceptedCells cells => .propose cells
  | .deliver i =>
    match w.mailbox[i]? with
    | some (.queryComplete block acks) => .complete block acks
    | some (.generateBlock block) => .generate block
    | _ => .idle
  | .reply _ _ => .idle

/-- A task and its results, up to the messages and requests in flight. -/
inductive Does (order : HailOrder H) (w : HailActor H) : Task H → HailActor H → Prop where
  | join {msg : LiveCommittee H} {s : Hail H} (ms : List (HailMessage H))
      (qs : List (BlockQuery H)) : w.hail.liveCommittee order msg = some s →
      Does order w (.join msg) { w with
        hail := s, tips := w.tips ++ [⟨msg.height, msg.lastAcceptedHash⟩], mailbox := ms,
        requests := qs }
  | receive {block : HailBlock H} {new outcome : Bool} {s : Hail H} (ms : List (HailMessage H))
      (qs : List (BlockQuery H)) : w.hail.queryBlock order block = some (new, outcome, s) →
      Does order w (.receive block) { w with
        hail := s, votes := w.votes ++ [⟨block, outcome, s⟩], mailbox := ms, requests := qs }
  | generate {block : Block H} {made : HailBlock H} {new : Bool} {s : Hail H}
      (ms : List (HailMessage H)) (qs : List (BlockQuery H)) :
      w.hail.generateBlock order block = some (new, made, s) →
      Does order w (.generate block) { w with hail := s, mailbox := ms, requests := qs }
  | propose {cells : List (Cell H)} {block : Option (Block H)} {s : Hail H}
      (ms : List (HailMessage H)) (qs : List (BlockQuery H)) :
      w.hail.acceptedCells cells = some (block, s) →
      Does order w (.propose cells) { w with
        hail := s, proposed := w.proposed ++ block.toList, mailbox := ms, requests := qs }
  | pass {block : HailBlock H} {acks : List (BlockResponse H)} {accepted : Option (Vertex H)}
      {s : Hail H} (ms : List (HailMessage H)) (qs : List (BlockQuery H)) :
      w.hail.passes acks = true → w.hail.passQuery order block = some (accepted, s) →
      Does order w (.complete block acks) { w with
        hail := s.markQueried block, tips := w.tips ++ [block.vertex], mailbox := ms,
        requests := qs }
  | fail {block : HailBlock H} {acks : List (BlockResponse H)} (ms : List (HailMessage H))
      (qs : List (BlockQuery H)) : w.hail.passes acks = false →
      Does order w (.complete block acks) { w with
        hail := w.hail.markQueried block, mailbox := ms, requests := qs }
  | idle (ms : List (HailMessage H)) (qs : List (BlockQuery H)) :
      Does order w .idle { w with mailbox := ms, requests := qs }

theorem onGenerateBlock_does {block : Block H} (ms : List (HailMessage H))
    (taken : { w with mailbox := ms }.onGenerateBlock order block = some w') :
    Does order w (.generate block) w' := by
  obtain ⟨⟨new, made, s⟩, generated, rfl⟩ := Option.map_eq_some_iff.mp taken
  exact .generate _ w.requests generated

theorem onQueryComplete_does {acks : List (BlockResponse H)} (ms : List (HailMessage H))
    (taken : { w with mailbox := ms }.onQueryComplete order block acks = some w') :
    Does order w (.complete block acks) w' := by
  obtain ⟨⟨accepted, s⟩, completed, rfl⟩ := Option.map_eq_some_iff.mp taken
  unfold Hail.queryComplete at completed
  by_cases passes : w.hail.passes acks
  · simp only [passes, if_true, Option.map_eq_some_iff] at completed ⊢
    obtain ⟨⟨accepted', s'⟩, passed, eq⟩ := completed
    cases eq
    exact .pass _ w.requests passes passed
  · have fails : w.hail.passes acks = false := by simpa using passes
    simp only [fails, Bool.false_eq_true, if_false] at completed ⊢
    cases completed
    exact .fail _ w.requests fails

theorem step_does {e : HailEvent H} (taken : w.step (order, e) = some w') :
    Does order w (w.task e) w' := by
  cases e with
  | liveCommittee msg =>
    obtain ⟨s, joined, rfl⟩ := Option.map_eq_some_iff.mp taken
    exact .join w.mailbox w.requests joined
  | queryBlock block =>
    obtain ⟨⟨new, outcome, s⟩, received, rfl⟩ := Option.map_eq_some_iff.mp taken
    exact .receive _ w.requests received
  | generateBlock block => exact onGenerateBlock_does w.mailbox taken
  | acceptedCells cells =>
    obtain ⟨⟨block, s⟩, proposed, rfl⟩ := Option.map_eq_some_iff.mp taken
    exact .propose _ w.requests proposed
  | deliver i =>
    simp only [step] at taken
    simp only [task]
    cases named : w.mailbox[i]? with
    | none => rw [named] at taken; cases taken
    | some m =>
      rw [named] at taken
      cases m with
      | queryIncomplete block acks => cases taken; exact .idle _ w.requests
      | queryComplete block acks => exact onQueryComplete_does _ taken
      | accepted vertex => cases taken; exact .idle _ w.requests
      | freshBlock block =>
        simp only [handle, onFreshBlock] at taken
        split at taken
        · cases taken
        · cases taken
          exact .idle _ _
      | generateBlock block => exact onGenerateBlock_does _ taken
  | reply i response =>
    simp only [step] at taken
    simp only [task]
    split at taken
    · cases taken
    · rename_i q found
      cases response with
      | none => cases taken; exact .idle w.mailbox _
      | some r =>
        cases r with
        | oneshot => cases taken
        | fanout acks =>
          simp only [onReply] at taken
          split at taken <;> cases taken <;> exact .idle _ _

/-- The block that a task writes, if it is new. -/
inductive Writes (order : HailOrder H) (w : HailActor H) : Task H → HailBlock H → Prop where
  | join (msg : LiveCommittee H) : Writes order w (.join msg) msg.lastAcceptedBlock
  | receive (block : HailBlock H) : Writes order w (.receive block) block
  | generate {block : Block H} {parent : Vertex H} :
      w.hail.selectParent order block.height = some (.ok parent) →
      Writes order w (.generate block) ⟨some parent, block⟩

/-- What a step can do to the blocks: nothing, add one, or count votes. -/
theorem Does.blocks {t : Task H} (does : Does order w t w') :
    w.hail.Same w'.hail ∨ (∃ block, Writes order w t block ∧ w.hail.Adds order block w'.hail) ∨
      ∃ block acks, t = .complete block acks ∧ w.hail.passes acks = true ∧
        w.hail.Votes block w'.hail := by
  cases does with
  | @join msg s ms qs joined =>
    obtain ⟨⟨_, t⟩, inserted, rfl⟩ := Option.map_eq_some_iff.mp joined
    have left := Outcome.unwrap_eq_some.mp inserted
    rcases Hail.insert_cases (congrArg Outcome.state? left) with ⟨rfl, _⟩ | ⟨adds, _⟩
    · exact .inl ⟨rfl, rfl, rfl⟩
    · exact .inr (.inl ⟨_, .join msg, adds.fresh, adds.rooted, adds.map, adds.dag, adds.accepted⟩)
  | @receive block new outcome s ms qs received =>
    rcases (Hail.onReceiveBlock_cases (Hail.queryBlock_cases received).1).1 with same | adds
    · exact .inl same
    · exact .inr (.inl ⟨_, .receive block, adds⟩)
  | @generate block made new s ms qs generated =>
    obtain ⟨parent, selected, left⟩ := Hail.generateBlock_cases generated
    rcases (Hail.onReceiveBlock_cases left).1 with same | adds
    · exact .inl same
    · exact .inr (.inl ⟨_, .generate selected, adds⟩)
  | propose ms qs proposed =>
    rcases Hail.acceptedCells_cases proposed with ⟨_, rfl⟩ | ⟨_, rfl, _⟩
    · exact .inl (.refl _)
    · exact .inl ⟨rfl, rfl, rfl⟩
  | @pass block acks accepted s ms qs passes passed =>
    obtain ⟨votes, _⟩ := Hail.passQuery_votes passed
    refine .inr (.inr ⟨block, acks, rfl, passes, votes.chit, votes.tally, ?_⟩)
    refine votes.accepted.imp id ?_
    rintro ⟨vx, member, final, grown⟩
    refine ⟨vx, member, ?_, grown⟩
    rw [← final]
    apply Hail.isAccepted_same <;> rfl
  | fail => exact .inl ⟨rfl, rfl, rfl⟩
  | idle => exact .inl (.refl _)

end HailActor
end Subzero
