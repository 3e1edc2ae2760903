import Subzero.Graph.Insertion
import Subzero.Sleet.Sample
import Subzero.Sleet.Steps

/-! A transaction whose ancestry has no conflicts is accepted: `BETA1` successful queries of
its progeny are enough, whatever else the actor does in between, as long as no query fails
that would reset a counter of the ancestry. -/
namespace Subzero
variable {H : Type} [DecidableEq H] [Blake3 H]
variable {added : Finset H} {k : Nat} {w w' : Actor H} {e : Event H}
variable {s s' : Sleet H} {a t : H} {order : HashOrder H} {tx : Tx H} {new : List H}

namespace Sleet

/-- A vertex of the DAG whose ancestry is alone in its conflict sets, and was when these last
counted. -/
structure Virtuous (s : Sleet H) (t : H) : Prop where
  vertex : t ∈ s.dag.g
  alive : ∀ a ∈ s.dag.dfs t,
    s.knownTxs.status a ≠ some .removed ∧ s.knownTxs.status a ≠ some .rejected
  alone : ∀ a ∈ s.dag.dfs t, ∃ set ∈ s.conflictGraph.cs.lookup a,
    set.isSingleton = true ∧ set.last = a

instance (s : Sleet H) (t : H) : Decidable (s.Virtuous t) :=
  decidable_of_iff (t ∈ s.dag.g ∧ (∀ a ∈ s.dag.dfs t,
      s.knownTxs.status a ≠ some .removed ∧ s.knownTxs.status a ≠ some .rejected) ∧
      ∀ a ∈ s.dag.dfs t, ∃ set ∈ s.conflictGraph.cs.lookup a,
        set.isSingleton = true ∧ set.last = a)
    ⟨fun h => ⟨h.1, h.2.1, h.2.2⟩, fun h => ⟨h.1, h.2, h.3⟩⟩

/-- The whole ancestry has counted to `k`. -/
def Counted (s : Sleet H) (t : H) (k : Nat) : Prop :=
  ∀ a ∈ s.dag.dfs t, ∀ set, s.conflictGraph.cs.lookup a = some set → k ≤ set.cnt

/-- Vertices get no new parents, and no counter of the ancestry goes down. -/
structure Lasts (t : H) (s s' : Sleet H) : Prop where
  parent : ∀ v ∈ s.dag.g, ∀ p, s'.dag.Parent v p → s.dag.Parent v p
  counter : ∀ a ∈ s.dag.dfs t, ∀ set set', s.conflictGraph.cs.lookup a = some set →
    s'.conflictGraph.cs.lookup a = some set' → set.cnt ≤ set'.cnt

/-- What receiving transactions does: nothing that was there goes or changes its counter. -/
structure Grows (s s' : Sleet H) : Prop where
  vertex : ∀ v ∈ s.dag.g, v ∈ s'.dag.g
  parent : ∀ v ∈ s.dag.g, ∀ p, s'.dag.Parent v p → s.dag.Parent v p
  set : ∀ a set, s.conflictGraph.cs.lookup a = some set →
    ∃ set', s'.conflictGraph.cs.lookup a = some set' ∧ set'.cnt = set.cnt

section Grows
omit [Blake3 H]

theorem Grows.refl (s : Sleet H) : Grows s s :=
  ⟨fun _ h => h, fun _ _ _ h => h, fun _ set found => ⟨set, found, rfl⟩⟩

theorem Grows.trans {s₁ s₂ s₃ : Sleet H} (first : Grows s₁ s₂) (second : Grows s₂ s₃) :
    Grows s₁ s₃ where
  vertex v here := second.vertex v (first.vertex v here)
  parent v here p edge := first.parent v here p (second.parent v (first.vertex v here) p edge)
  set a set found := by
    obtain ⟨set₂, found₂, cnt₂⟩ := first.set a set found
    obtain ⟨set₃, found₃, cnt₃⟩ := second.set a set₂ found₂
    exact ⟨set₃, found₃, cnt₃.trans cnt₂⟩

theorem Grows.lasts (grows : Grows s s') (t : H) : Lasts t s s' := by
  refine ⟨grows.parent, fun a _ set set' before after => ?_⟩
  obtain ⟨found, here, cnt⟩ := grows.set a set before
  cases here.symm.trans after
  exact cnt.ge

/-- An insertion keeps the edges of the vertices that are there. -/
theorem insertVx_grows {d d' : DAG H} {vx : H} {edges : List H} (linked : d.Linked)
    (inside : ∀ e ∈ edges, e ∈ d.g) (left : (d.insertVx vx edges).state? = some d') :
    (∀ v ∈ d.g, v ∈ d'.g) ∧ ∀ v ∈ d.g, ∀ p, d'.Parent v p → d.Parent v p := by
  obtain ⟨_, _, ⟨_, same, _⟩ | ⟨absent, grown⟩⟩ := DAG.insertVx_cases linked inside left
  · exact ⟨fun v here => same ▸ here, fun v _ p => (DAG.parent_congr same).mp⟩
  · refine ⟨fun v here => grown ▸ Finmap.mem_insert.mpr (.inr here), fun v here p edge => ?_⟩
    have other : v ≠ vx := fun same => absent (same ▸ here)
    rwa [DAG.parent_insert grown, if_neg other] at edge

theorem Bares.grows {d d' : DAG H} (bares : Bares added d d') (linked : d.Linked) :
    d'.Linked ∧ (∀ v ∈ d.g, v ∈ d'.g) ∧ ∀ v ∈ d.g, ∀ p, d'.Parent v p → d.Parent v p := by
  induction bares with
  | refl => exact ⟨linked, fun _ h => h, fun _ _ _ h => h⟩
  | tail _ round ih =>
    obtain ⟨linked₁, vertex₁, parent₁⟩ := ih
    obtain ⟨v, listed, left | left⟩ := round
    · obtain ⟨vertex₂, parent₂⟩ := insertVx_grows linked₁ (by simp) left
      refine ⟨(bare_vertex linked₁ listed left).1, fun k here => vertex₂ k (vertex₁ k here), ?_⟩
      exact fun k here p edge => parent₁ k here p (parent₂ k (vertex₁ k here) p edge)
    · obtain ⟨g, inv⟩ := DAG.setChit_edges left
      exact ⟨linked₁.of_edges g inv, g ▸ vertex₁, fun k here p edge =>
        parent₁ k here p ((DAG.parent_congr g).mp edge)⟩

theorem Aside.grows (aside : Aside added s s') (linked : s.dag.Linked) : Grows s s' := by
  obtain ⟨_, vertex, parent⟩ := aside.bares.grows linked
  refine ⟨vertex, parent, fun a set found => ⟨set, ?_, rfl⟩⟩
  rcases aside.graph with same | ⟨order, ids, grown⟩
  · rw [same]
    exact found
  · rw [grown]
    exact found

end Grows

theorem insertCell_counts (order : HashOrder H) {c c' : ConflictGraph H} {cell : Cell H}
    (ok : c.Consistent) (left : (c.insertCell order cell).state? = some c') (a : H)
    (set : ConflictSet H) (found : c.cs.lookup a = some set) :
    ∃ set', c'.cs.lookup a = some set' ∧ set'.cnt = set.cnt := by
  have stored : ∀ h ∈ c.cs, h ∈ c.cells := by
    intro h member
    obtain ⟨set, known⟩ := Finmap.mem_iff.mp member
    obtain ⟨cell, here, _⟩ := ok.stored h set known
    exact Finmap.mem_of_lookup_eq_some here
  rcases ConflictGraph.insertCell_cases order stored left with ⟨_, ins⟩ | ⟨_, refused⟩
  · have other : a ≠ cell.hash := fun same =>
      ins.fresh (same ▸ stored a (Finmap.mem_of_lookup_eq_some found))
    rw [ins.cs, if_neg other, found]
    split
    · exact ⟨_, rfl, rfl⟩
    · exact ⟨_, rfl, rfl⟩
  · exact ⟨set, refused.cs ▸ found, rfl⟩

theorem onReceiveTx_grows (linked : s.dag.Linked) (ok : s.conflictGraph.Consistent)
    (left : (s.onReceiveTx order tx).state? = some s') : Grows s s' := by
  have receipt := onReceiveTx_receipt order s tx
  generalize s.onReceiveTx order tx = out at receipt left
  have put : ∀ {cg : ConflictGraph H} {d : DAG H}, Insertable s tx →
      (s.conflictGraph.insertCell order tx.cell).state? = some cg →
      (s.dag.insertVx tx.hash (s.removeAcceptedParents tx.parents)).state? = some d →
      Grows s { s with conflictGraph := cg, dag := d } := by
    intro cg d insertable conflict vertex
    obtain ⟨vertices, parents⟩ :=
      insertVx_grows linked (hasParents_inside insertable.parents) vertex
    exact ⟨vertices, parents, insertCell_counts order ok conflict⟩
  cases receipt with
  | refused e => cases left; exact .refl _
  | known _ _ => cases left; exact .refl _
  | conflicts _ conflict =>
    cases left
    exact ⟨fun _ h => h, fun _ _ _ h => h,
      insertCell_counts order ok (congrArg Outcome.state? conflict)⟩
  | vertex insertable conflict vertex =>
    cases left
    exact put insertable (congrArg Outcome.state? conflict) (congrArg Outcome.state? vertex)
  | stored insertable conflict vertex =>
    cases left
    obtain ⟨vertices, parents, sets⟩ :=
      put insertable (congrArg Outcome.state? conflict) (congrArg Outcome.state? vertex)
    exact ⟨vertices, parents, sets⟩
  | panic => cases left

theorem Takes.grows (injective : Function.Injective (Cell.hash : Cell H → H))
    {rs : List (Sleet H × Tx H)} (takes : Takes added s rs s') (linked : s.dag.Linked)
    (ok : s.conflictGraph.Consistent) : Grows s s' := by
  induction takes with
  | done => exact .refl _
  | aside step _ ih =>
    refine (step.grows linked).trans (ih (step.dag linked).1 ?_)
    rcases step.graph with same | ⟨order, ids, grown⟩
    · exact same ▸ ok
    · exact grown ▸ ConflictGraph.append_consistent order ids ok
  | receive left _ ih =>
    refine (onReceiveTx_grows linked ok left).trans
      (ih ((onReceiveTx_admits left).linked linked) ?_)
    rcases onReceiveTx_graph left with rfl | ⟨_, inserted⟩
    · exact ok
    · exact ConflictGraph.callAny_consistent injective ok inserted

/-- A query that gets its votes counts for every ancestor, and for nothing else. -/
theorem passQuery_counts (linked : s.dag.Linked) (done : s.passQuery tx = some (new, s'))
    {set : ConflictSet H} (found : s.conflictGraph.cs.lookup a = some set) :
    ∃ set', s'.conflictGraph.cs.lookup a = some set' ∧
      set'.cnt = if a ∈ s.dag.dfs tx.hash then set.bumped a else set.cnt := by
  unfold passQuery at done
  split at done
  · cases done
  · rename_i d chit
    obtain ⟨g, inv⟩ := DAG.setChit_edges (congrArg Outcome.state? (Outcome.unwrap_eq_some.mp chit))
    split at done
    · cases done
    · rename_i s₁ updated
      have linked_d : d.Linked := linked.of_edges g inv
      obtain ⟨cs, rfl, touched, kept⟩ := updateLoop_ok (linked_d.dfs_nodup tx.hash)
        (Outcome.unwrap_eq_some.mp updated)
      split at done
      · cases done
      · have marked := (computeAcceptedTxs_some linked_d done).1
        have sets : s'.conflictGraph.cs = cs := by
          rw [marked.conflictGraph]
          rfl
        rw [sets]
        have dfs : d.dfs tx.hash = s.dag.dfs tx.hash := dfs_congr g tx.hash
        by_cases inside : a ∈ s.dag.dfs tx.hash
        · obtain ⟨set₀, d1, d2, before, after⟩ := touched a (dfs ▸ inside)
          cases found.symm.trans before
          exact ⟨_, after, by rw [if_pos inside, ConflictSet.update_cnt]⟩
        · exact ⟨set, (kept a (dfs ▸ inside)).trans found, by rw [if_neg inside]⟩

omit [Blake3 H] in
/-- A query that fails resets the counters of the ancestry, and nothing else. -/
theorem failQuery_kept {hash a : H} (done : s.failQuery hash = some s')
    (outside : a ∉ s.dag.dfs hash) :
    s'.conflictGraph.cs.lookup a = s.conflictGraph.cs.lookup a := by
  obtain ⟨⟨_, s₁⟩, unwrapped, rfl⟩ := Option.map_eq_some_iff.mp done
  have left := congrArg Outcome.state? (Outcome.unwrap_eq_some.mp unwrapped)
  refine Outcome.forEach_rel
    (fun s t : Sleet H => t.conflictGraph.cs.lookup a = s.conflictGraph.cs.lookup a)
    (fun _ => rfl) (fun _ _ _ first second => second.trans first) _ _ ?_ s s₁ left
  intro b listed u v round
  have other : a ≠ b := fun same => outside (same ▸ listed)
  rw [Outcome.state?_lift] at round
  obtain ⟨cg, reset, rfl⟩ := Option.map_eq_some_iff.mp round
  rcases ConflictGraph.mutateSet_cases reset with ⟨rfl, _⟩ | ⟨set, _, rfl, _⟩
  · rfl
  · exact Finmap.lookup_insert_of_ne _ other

omit [Blake3 H] in
theorem dropAll_parent (hashes : List H) (s : Sleet H) (v p : H)
    (edge : (hashes.foldl dropVx s).dag.Parent v p) : s.dag.Parent v p := by
  induction hashes generalizing s with
  | nil => exact edge
  | cons a hashes ih =>
    obtain ⟨d, eq, removed⟩ := dropVx_dag s a
    have inner := ih (s.dropVx a) edge
    rw [eq] at inner
    exact (DAG.removeVx_frame removed).parent v p inner

theorem newAccepted_lasts (order : HashOrder H) {hashes : List H} {cells : List (Cell H)}
    (keyed : s.Keyed) (done : s.newAccepted order hashes = some (cells, s')) (t : H) :
    Lasts t s s' := by
  obtain ⟨s₁, _, pruned, sweep, _⟩ := newAccepted_sweep order keyed done
  refine ⟨fun v _ p edge => ?_, fun a _ set set' before after => ?_⟩
  · obtain ⟨s₂, computed, rfl⟩ := Option.map_eq_some_iff.mp pruned
    obtain ⟨f, _, rfl⟩ := Option.map_eq_some_iff.mp computed
    have kept := dropAll_parent _ { s₁ with acceptedFrontier := f.accepted } v p edge
    exact sweep.parent v p kept
  · rw [(prune_some order pruned).2.1] at after
    obtain ⟨set₀, found, cnt, _⟩ := sweep.sets.below a set' after
    cases before.symm.trans found
    exact cnt.ge

omit [Blake3 H] in
/-- The ancestry of a vertex that stays is part of what it was. -/
theorem Lasts.dfs (lasts : Lasts t s s') (linked : s.dag.Linked) (linked' : s'.dag.Linked)
    (vertex : t ∈ s.dag.g) (member : a ∈ s'.dag.dfs t) : a ∈ s.dag.dfs t := by
  refine linked.mem_dfs.mpr ⟨vertex, ?_⟩
  have path := (linked'.mem_dfs.mp member).2
  clear member
  induction path with
  | refl => exact .refl
  | tail _ edge ih => exact ih.tail (lasts.parent _ (linked.ancestor_mem vertex ih) _ edge)

omit [Blake3 H] in
theorem Lasts.counted (lasts : Lasts t s s') (linked : s.dag.Linked) (linked' : s'.dag.Linked)
    (virtuous : s.Virtuous t) (counted : s.Counted t k) : s'.Counted t k := by
  intro a member set' found
  have before := lasts.dfs linked linked' virtuous.vertex member
  obtain ⟨set, known, _⟩ := virtuous.alone a before
  exact (counted a before set known).trans (lasts.counter a before set set' known found)

omit [Blake3 H] in
/-- One more success raises a counter that is not full. -/
theorem bumped_ge {set : ConflictSet H} (last : set.last = a) (low : k < BETA2)
    (counted : k ≤ set.cnt) : k + 1 ≤ set.bumped a := by
  unfold ConflictSet.bumped
  split
  · omega
  · rename_i full
    have : BETA2 ≤ set.cnt := by
      by_contra less
      exact full ⟨last, by omega⟩
    omega

theorem queryComplete_passes {acks : List (Response H)} (succeeds : s.Succeeds acks)
    (done : s.queryComplete tx acks = some (new, s')) :
    ∃ s₁, s.passQuery tx = some (new, s₁) ∧ s₁.markQueried tx.hash = some s' := by
  obtain ⟨os, counted, enough⟩ := succeeds
  simp only [queryComplete, Option.mem_def.mp counted, if_pos enough] at done
  obtain ⟨⟨new₁, s₁⟩, passed, rest⟩ := Option.bind_eq_some_iff.mp done
  obtain ⟨s₂, marked, eq⟩ := Option.map_eq_some_iff.mp rest
  cases eq
  exact ⟨s₁, passed, marked⟩

theorem queryComplete_fails {acks : List (Response H)} (fails : ¬ s.Succeeds acks)
    (done : s.queryComplete tx acks = some (new, s')) :
    ∃ s₁, s.failQuery tx.hash = some s₁ ∧ s₁.markQueried tx.hash = some s' := by
  unfold queryComplete at done
  split at done
  · cases done
  · rename_i os counted
    have few : ¬ ALPHA < sumOutcomes os := fun enough => fails ⟨os, counted, enough⟩
    rw [if_neg few] at done
    obtain ⟨s₁, failed, rest⟩ := Option.bind_eq_some_iff.mp done
    obtain ⟨s₂, marked, eq⟩ := Option.map_eq_some_iff.mp rest
    cases eq
    exact ⟨s₁, failed, marked⟩

end Sleet

namespace Actor

/-- The transaction was announced as accepted, or is stored as such. -/
def Settled (t : H) (w : Actor H) : Prop :=
  t ∈ w.accepted ∨ w.sleet.knownTxs.status t = some .accepted

instance (t : H) (w : Actor H) : Decidable (Settled t w) := inferInstanceAs (Decidable (_ ∨ _))

/-- A query of the progeny gets its votes. -/
def Supports (t : H) (w : Actor H) (e : Event H) : Prop :=
  ∃ root ∈ w.passing e, t ∈ w.sleet.dag.dfs root

instance (t : H) (w : Actor H) (e : Event H) : Decidable (Supports t w e) :=
  inferInstanceAs (Decidable (∃ root ∈ w.passing e, _))

/-- The transaction whose query fails at an event. -/
def failing (w : Actor H) (e : Event H) : Option H :=
  match w.message e with
  | some (.queryComplete tx acks) => if w.sleet.Succeeds acks then none else some tx.hash
  | some (.queryIncomplete tx _) => some tx.hash
  | _ => none

/-- No query fails that has an ancestor in common with the transaction. -/
def Misses (t : H) (w : Actor H) (x : HashOrder H × Event H) : Prop :=
  ∀ root ∈ w.failing x.2, ∀ a ∈ w.sleet.dag.dfs t, a ∉ w.sleet.dag.dfs root

instance (t : H) (w : Actor H) (x : HashOrder H × Event H) : Decidable (Misses t w x) :=
  inferInstanceAs (Decidable (∀ root ∈ w.failing x.2, _))

/-- How many of the steps support a transaction. -/
def supports (t : H) (steps : List (Actor H × HashOrder H × Event H)) : Nat :=
  steps.countP fun x => Supports t x.1 x.2.2

omit [Blake3 H] in
/-- A failed query that misses the ancestry keeps its counters. -/
theorem failed_lasts {s s₁ s' : Sleet H} {hash : H} (completed : s.Completed hash new s')
    (failed : s.failQuery hash = some s₁) (marked : s₁.markQueried hash = some s')
    (spared : ∀ a ∈ s.dag.dfs t, a ∉ s.dag.dfs hash) : Sleet.Lasts t s s' := by
  refine ⟨fun v _ p => (DAG.parent_congr completed.g).mp,
    fun a member set set' before after => ?_⟩
  rw [(Sleet.markQueried_some marked).2.2.1, Sleet.failQuery_kept failed (spared a member)]
    at after
  cases before.symm.trans after
  exact le_rfl

theorem Move.lasts (injective : Function.Injective (Cell.hash : Cell H → H))
    (move : Move order w e w') (sound : Sound w) (ok : w.sleet.conflictGraph.Consistent)
    (misses : Misses t w (order, e)) : Sleet.Lasts t w.sleet w'.sleet := by
  cases move with
  | receives _ takes => exact (takes.grows injective sound.linked ok).lasts t
  | @complete tx acks new delivered done =>
    have completed := (Sleet.queryComplete_completed sound.linked done).1
    by_cases succeeds : w.sleet.Succeeds acks
    · obtain ⟨s₁, passed, marked⟩ := Sleet.queryComplete_passes succeeds done
      refine ⟨fun v _ p => (DAG.parent_congr completed.g).mp,
        fun a _ set set' before after => ?_⟩
      rw [(Sleet.markQueried_some marked).2.2.1] at after
      obtain ⟨set₁, found, cnt⟩ := Sleet.passQuery_counts sound.linked passed before
      cases found.symm.trans after
      rw [cnt]
      split
      · unfold ConflictSet.bumped
        split <;> omega
      · exact le_rfl
    · obtain ⟨s₁, failed, marked⟩ := Sleet.queryComplete_fails succeeds done
      refine failed_lasts completed failed marked (misses tx.hash ?_)
      simp [failing, delivered, succeeds]
  | @incomplete tx acks delivered done =>
    obtain ⟨s₁, failed, marked⟩ := Option.bind_eq_some_iff.mp done
    refine failed_lasts (Sleet.queryIncomplete_completed done) failed marked (misses tx.hash ?_)
    simp [failing, delivered]
  | newAccepted _ handled => exact Sleet.newAccepted_lasts order sound.keyed handled t
  | fetches _ eq =>
    rw [eq]
    refine ⟨fun _ _ _ edge => edge, fun a _ set set' before after => ?_⟩
    cases before.symm.trans after
    exact le_rfl

/-- A supporting step is a query that gets its votes. -/
theorem Supports.passes (supports : Supports t w e) (move : Move order w e w') :
    ∃ tx acks new, w.sleet.Succeeds acks ∧ t ∈ w.sleet.dag.dfs tx.hash ∧
      w.sleet.queryComplete tx acks = some (new, w'.sleet) ∧ w'.accepted = w.accepted ++ new := by
  obtain ⟨root, passing, member⟩ := supports
  have at_message : ∀ {m}, w.message e = some m → ∃ tx acks, m = .queryComplete tx acks ∧
      w.sleet.Succeeds acks ∧ root = tx.hash := by
    intro m delivered
    simp only [Actor.passing, delivered] at passing
    cases m with
    | queryComplete tx acks =>
      simp only at passing
      split at passing
      · rename_i succeeds
        exact ⟨tx, acks, rfl, succeeds, (Option.some.inj passing).symm⟩
      · cases passing
    | _ => cases passing
  cases move with
  | receives quiet => rw [quiet] at passing; cases passing
  | complete delivered done _ _ accepted =>
    obtain ⟨tx, acks, same, succeeds, rfl⟩ := at_message delivered
    cases same
    exact ⟨_, _, _, succeeds, member, done, accepted⟩
  | incomplete delivered =>
    obtain ⟨_, _, same, _⟩ := at_message delivered
    cases same
  | newAccepted delivered =>
    obtain ⟨_, _, same, _⟩ := at_message delivered
    cases same
  | @fetches tx fetched =>
    have delivers : w.message e = none := by
      cases e with
      | fetch => rfl
      | _ => cases fetched
    rw [Actor.passing, delivers] at passing
    cases passing

/-- A supporting step counts once more, and the last one that is needed accepts. -/
theorem Supports.counted (supports : Supports t w e) (move : Move order w e w') (sound : Sound w)
    (virtuous : w.sleet.Virtuous t) (counted : w.sleet.Counted t k) (low : k < BETA1) :
    w'.sleet.Counted t (k + 1) ∧ (BETA1 ≤ k + 1 → Settled t w ∨ Settled t w') := by
  obtain ⟨tx, acks, new, succeeds, member, done, accepted⟩ := supports.passes move
  obtain ⟨completed, _, exactly⟩ := Sleet.queryComplete_completed sound.linked done
  have bumps : ∀ a ∈ w.sleet.dag.dfs t, ∀ set, w.sleet.conflictGraph.cs.lookup a = some set →
      set.last = a → k + 1 ≤ set.bumped a := fun a here set found last =>
    Sleet.bumped_ge last (low.trans (by decide)) (counted a here set found)
  constructor
  · intro a here set' found
    rw [Sleet.dfs_congr completed.g] at here
    obtain ⟨set, known, _, last⟩ := virtuous.alone a here
    obtain ⟨s₁, passed, marked⟩ := Sleet.queryComplete_passes succeeds done
    rw [(Sleet.markQueried_some marked).2.2.1] at found
    obtain ⟨set₁, there, cnt⟩ := Sleet.passQuery_counts sound.linked passed known
    cases there.symm.trans found
    rw [cnt, if_pos (sound.linked.dfs_subset member here)]
    exact bumps a here set known last
  · intro enough
    by_cases already : w.sleet.knownTxs.status t = some .accepted
    · exact .inl (.inr already)
    · have ripe : w.sleet.Ripe tx.hash t := by
        refine ⟨member, fun a here => .inr ?_⟩
        obtain ⟨set, known, single, last⟩ := virtuous.alone a here
        obtain ⟨unremoved, unrejected⟩ := virtuous.alive a here
        exact ⟨unremoved, unrejected, set, known,
          .inl ⟨single, enough.trans (bumps a here set known last)⟩⟩
      have announced : t ∈ new := (exactly t).mpr ⟨succeeds, ripe, already⟩
      exact .inr (.inl (accepted ▸ List.mem_append_right _ announced))

/-- A transaction with a virtuous ancestry is accepted after `BETA1` successful queries of
its progeny, in any state that the actor has reached and whatever it does in between. -/
theorem virtuous_accepted (injective : Function.Injective (Cell.hash : Cell H → H))
    {order : HashOrder H} {id : Id} {ip : SocketAddr} {peers : List (Id × SocketAddr)}
    {earlier steps : List (Actor H × HashOrder H × Event H)} {w last : Actor H}
    (reached : Run step (Actor.started (.new order id ip peers)) earlier w)
    (run : Run step w steps last) {t : H}
    (virtuous : ∀ u ∈ states steps last, Settled t u ∨ u.sleet.Virtuous t)
    (spared : Meets (Misses t) steps) (enough : BETA1 ≤ supports t steps) :
    ∃ u ∈ states steps last, Settled t u := by
  have progress : (∃ u ∈ states steps last, Settled t u) ∨
      supports t steps < BETA1 ∧ last.sleet.Counted t (supports t steps) := by
    clear enough
    induction run with
    | start => exact .inr ⟨by simp [supports, BETA1], fun a _ set _ => by simp [supports]⟩
    | @next steps u v x run taken ih =>
      have before : u ∈ states (steps ++ [(u, x)]) v :=
        mem_states_next.mpr (.inl (by simp [states]))
      have after : v ∈ states (steps ++ [(u, x)]) v := mem_states_next.mpr (.inr rfl)
      rcases ih (fun s listed => virtuous s (mem_states_next.mpr (.inl listed))) spared.init with
        ⟨s, listed, settled⟩ | ⟨few, counted⟩
      · exact .inl ⟨s, mem_states_next.mpr (.inl listed), settled⟩
      rcases virtuous u before with settled | here
      · exact .inl ⟨u, before, settled⟩
      have whole := reached.append run
      have sound := Sound.run whole
      have ok := consistent_run injective whole
      have move := step_move taken
      have count : supports t (steps ++ [(u, x)]) =
          supports t steps + if Supports t u x.2 then 1 else 0 := by
        simp [supports, List.countP_append, List.countP_singleton]
      by_cases support : Supports t u x.2
      · obtain ⟨next, settles⟩ := support.counted move sound here counted few
        rw [count, if_pos support]
        by_cases full : BETA1 ≤ supports t steps + 1
        · rcases settles full with settled | settled
          · exact .inl ⟨u, before, settled⟩
          · exact .inl ⟨v, after, settled⟩
        · exact .inr ⟨by omega, next⟩
      · rw [count, if_neg support, Nat.add_zero]
        have lasts := move.lasts injective sound ok spared.last
        exact .inr ⟨few, lasts.counted sound.linked (move.sound sound).linked here counted⟩
  rcases progress with settled | ⟨few, _⟩
  · exact settled
  · omega

section Sample

/-- A transfer of the first coin, and transfers of others with the one before as the parent. -/
def chain : Nat → Tx Digest
  | 0 => transfer [] 0
  | n + 1 => transfer [chain n] (n + 1)

def received : Option (List (Actor Digest × HashOrder Digest × Event Digest) × Actor Digest) :=
  runSample [joins 12, receive (chain 0)]

def holder : Actor Digest := (received.map Prod.snd).getD sample

/-- The query of the first transfer and of ten others on top of it. -/
def supported : Option (List (Actor Digest × HashOrder Digest × Event Digest) × Actor Digest) :=
  exec step holder ((query 1 2 true (chain 0) ++
    poll 2 true ((List.range 10).map fun n => chain (n + 1))).map fun e => (ascendingOrder, e))

theorem virtuous_accepted_chain :
    ∃ steps last, Run step holder steps last ∧ supports (chain 0).hash steps = BETA1 ∧
      ∃ u ∈ states steps last, Settled (chain 0).hash u := by
  have first : received.isSome = true := by decide +kernel
  obtain ⟨⟨earlier, w⟩, arrived⟩ := Option.isSome_iff_exists.mp first
  have same : holder = w := by simp [holder, arrived]
  have reached : Run step sample earlier holder := same ▸ exec_run arrived
  have checked : supported.any (fun (r : List (Actor Digest × HashOrder Digest × Event Digest) ×
      Actor Digest) => decide (supports (chain 0).hash r.1 = BETA1 ∧
        (∀ u ∈ states r.1 r.2, Settled (chain 0).hash u ∨ u.sleet.Virtuous (chain 0).hash) ∧
        ∀ x ∈ r.1, Misses (chain 0).hash x.1 x.2)) = true := by decide +kernel
  obtain ⟨steps, last, run, holds⟩ := exec_any checked
  obtain ⟨count, virtuous, spared⟩ := of_decide_eq_true holds
  exact ⟨steps, last, run, count,
    virtuous_accepted hash_injective reached run virtuous spared count.ge⟩

end Sample

end Actor
end Subzero
