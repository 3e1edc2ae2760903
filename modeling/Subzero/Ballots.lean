import Mathlib.Algebra.Order.BigOperators.Group.Finset
import Subzero.Graph.Mutations
import Subzero.Hail.Sample
import Subzero.Hail.Steps
import Subzero.Sleet.Acceptance
import Subzero.Sleet.Sample

/-! The weight of a sample and the weight of its acks. Both components draw validators until
their weight is the threshold or more, and sum the weights of the acks in another handler.
Sleet asks for more than the threshold there and hail for no less. Neither of them looks for
two acks of one validator. -/
namespace Subzero

/-- The weight of a validator; one that is not in the committee has none. -/
def weightOf (committee : HashMap Id (SocketAddr × Weight)) (id : Id) : Weight :=
  ((committee.lookup id).map Prod.snd).getD 0

/-- The validators as `sample` collects them from the committee. -/
def validatorsOf (order : Listing Id) (committee : HashMap Id (SocketAddr × Weight)) :
    List (Id × SocketAddr × Weight) :=
  (order.list committee.keys).filterMap fun id =>
    (committee.lookup id).map fun (ip, w) => (id, ip, w)

def weightOfSample (committee : HashMap Id (SocketAddr × Weight))
    (sampled : List (Id × SocketAddr)) : Weight :=
  (sampled.map fun v => weightOf committee v.1).sum

/-- The distinct members of the committee in a list of ids. -/
def members (committee : HashMap Id (SocketAddr × Weight)) (ids : List Id) : Finset Id :=
  ids.toFinset.filter (· ∈ committee)

/-- The ids that say yes, each as often as it does. -/
def yeses (ballots : List (Id × Bool)) : List Id := (ballots.filter Prod.snd).map Prod.fst

/-- The ballots of the committee with their weights. -/
def weigh (committee : HashMap Id (SocketAddr × Weight)) (ballots : List (Id × Bool)) :
    List (Id × Weight × Bool) :=
  ballots.filterMap fun b => (committee.lookup b.1).map fun e => (b.1, e.2, b.2)

theorem sumOutcomes_eq (os : List (Id × Weight × Bool)) :
    sumOutcomes os = ((os.filter fun o => o.2.2).map fun o => o.2.1).sum := by
  have loop : ∀ acc : Weight, os.foldl (fun acc o => if o.2.2 then acc + o.2.1 else acc) acc =
      acc + ((os.filter fun o => o.2.2).map fun o => o.2.1).sum := by
    induction os with
    | nil => simp
    | cons o os ih =>
      intro acc
      rw [List.foldl_cons, ih]
      cases vote : o.2.2 <;> simp [vote, add_assoc]
  rw [sumOutcomes, loop, zero_add]

theorem sumOutcomes_weigh (committee : HashMap Id (SocketAddr × Weight))
    (ballots : List (Id × Bool)) :
    sumOutcomes (weigh committee ballots) = ((yeses ballots).map (weightOf committee)).sum := by
  rw [sumOutcomes_eq]
  induction ballots with
  | nil => rfl
  | cons b ballots ih =>
    obtain ⟨id, vote⟩ := b
    unfold weigh yeses at ih ⊢
    cases known : committee.lookup id <;> cases vote <;> simp [weightOf, known, ih]

/-- What is drawn is a first part of the validators that reaches the threshold. -/
theorem sampleWeighted_some {minW w : Weight} {validators : List (Id × SocketAddr × Weight)}
    {sample sampled : List (Id × SocketAddr)}
    (drawn : sampleWeighted minW validators w sample = some sampled) :
    ∃ first rest, validators = first ++ rest ∧
      sampled = sample ++ first.map (fun v => (v.1, v.2.1)) ∧
      minW ≤ w + (first.map fun v => v.2.2).sum := by
  induction validators generalizing w sample with
  | nil =>
    rw [sampleWeighted] at drawn
    split at drawn
    · contradiction
    · rename_i enough
      cases drawn
      exact ⟨[], [], rfl, by simp, by simpa using enough⟩
  | cons v validators ih =>
    obtain ⟨id, ip, wv⟩ := v
    rw [sampleWeighted] at drawn
    split at drawn
    · rename_i enough
      cases drawn
      exact ⟨[], _, rfl, by simp, by simpa using enough⟩
    · obtain ⟨first, rest, rfl, rfl, enough⟩ := ih drawn
      refine ⟨(id, ip, wv) :: first, rest, rfl, by simp, ?_⟩
      rwa [List.map_cons, List.sum_cons, ← add_assoc]

theorem mem_validatorsOf (order : Listing Id) {committee : HashMap Id (SocketAddr × Weight)}
    {v : Id × SocketAddr × Weight} (listed : v ∈ validatorsOf order committee) :
    weightOf committee v.1 = v.2.2 := by
  obtain ⟨id, _, found⟩ := List.mem_filterMap.mp listed
  obtain ⟨⟨ip, w⟩, known, rfl⟩ := Option.map_eq_some_iff.mp found
  simp [weightOf, known]

/-- A sample from a committee weighs as much as was asked for. -/
theorem sampleWeighted_weight {order : Listing Id} {committee : HashMap Id (SocketAddr × Weight)}
    {minW : Weight} {sampled : List (Id × SocketAddr)}
    (drawn : sampleWeighted minW (validatorsOf order committee) 0 [] = some sampled) :
    minW ≤ weightOfSample committee sampled := by
  obtain ⟨first, rest, split, rfl, enough⟩ := sampleWeighted_some drawn
  have same : (first.map fun v => weightOf committee v.1) = first.map fun v => v.2.2 := by
    refine List.map_congr_left fun v member => mem_validatorsOf order ?_
    rw [split]
    exact List.mem_append_left rest member
  rw [weightOfSample, List.nil_append, List.map_map]
  simpa [Function.comp_def, same] using enough

/-- A list weighs its distinct members, each as often as it occurs. -/
theorem sum_weights (committee : HashMap Id (SocketAddr × Weight)) (ids : List Id) :
    (ids.map (weightOf committee)).sum =
      ∑ id ∈ members committee ids, ids.count id * weightOf committee id := by
  have outside : ∀ id ∈ ids.toFinset, id ∉ members committee ids →
      (ids.count id : Weight) * weightOf committee id = 0 := by
    intro id listed out
    have unknown : id ∉ committee := fun known => out (Finset.mem_filter.mpr ⟨listed, known⟩)
    rw [weightOf, Finmap.lookup_eq_none.mpr unknown]
    simp
  have inside : members committee ids ⊆ ids.toFinset := Finset.filter_subset _ _
  rw [Finset.sum_subset inside outside, Finset.sum_list_map_count]
  simp

/-- Where nobody of positive weight is listed twice, the distinct members weigh no less than
the list. -/
theorem sum_weights_le {committee : HashMap Id (SocketAddr × Weight)} {ids : List Id}
    (once : ∀ id ∈ committee, 1 < ids.count id → weightOf committee id ≤ 0) :
    (ids.map (weightOf committee)).sum ≤ ∑ id ∈ members committee ids, weightOf committee id := by
  rw [sum_weights]
  refine Finset.sum_le_sum fun id member => ?_
  obtain ⟨listed, known⟩ := Finset.mem_filter.mp member
  have some : 1 ≤ ids.count id := List.one_le_count_iff.mpr (List.mem_toFinset.mp listed)
  rcases some.eq_or_lt with one | twice
  · rw [← one, Nat.cast_one, one_mul]
  · have scaled : (1 : Weight) ≤ ids.count id := by exact_mod_cast some
    have less := mul_le_mul_of_nonpos_right scaled (once id known twice)
    rwa [one_mul] at less

/-- A committee of one member that weighs less than one half, but more if it counts twice. -/
def lightest (id : Id) : HashMap Id (SocketAddr × Weight) :=
  (∅ : HashMap Id (SocketAddr × Weight)).insert id ("light", 3 / 10)

/-- If an id is listed twice, then there is a committee for which the list weighs more than
one half and the distinct members less. -/
theorem lightest_weights {ids : List Id} {id : Id} (twice : 1 < ids.count id) :
    ALPHA < (ids.map (weightOf (lightest id))).sum ∧
      ∑ k ∈ members (lightest id) ids, weightOf (lightest id) k < ALPHA := by
  have only : members (lightest id) ids = {id} := by
    ext k
    rw [members, Finset.mem_filter, lightest, Finmap.mem_insert, Finset.mem_singleton]
    constructor
    · rintro ⟨_, same | none⟩
      · exact same
      · exact absurd none Finmap.notMem_empty
    · rintro rfl
      exact ⟨List.mem_toFinset.mpr (List.one_le_count_iff.mp twice.le), .inl rfl⟩
  have weight : weightOf (lightest id) id = 3 / 10 := by
    rw [weightOf, lightest, Finmap.lookup_insert]
    rfl
  have count : (2 : Weight) ≤ ids.count id := by exact_mod_cast twice
  rw [sum_weights, only, Finset.sum_singleton, Finset.sum_singleton, weight]
  constructor
  · have more : ALPHA < 2 * (3 / 10) := by decide +kernel
    exact more.trans_le (mul_le_mul_of_nonneg_right count (by decide +kernel))
  · decide +kernel

theorem yeses_unanimous {sampled : List (Id × SocketAddr)} {ballots : List (Id × Bool)}
    (unanimous : ballots.Perm (sampled.map fun v => (v.1, true)))
    (committee : HashMap Id (SocketAddr × Weight)) :
    ((yeses ballots).map (weightOf committee)).sum = weightOfSample committee sampled := by
  have all : (sampled.map fun v => (v.1, true)).filter Prod.snd =
      sampled.map fun v => (v.1, true) := by
    refine List.filter_eq_self.mpr fun b listed => ?_
    obtain ⟨v, _, rfl⟩ := List.mem_map.mp listed
    rfl
  have same := ((unanimous.filter Prod.snd).map Prod.fst).map (weightOf committee)
  rw [yeses, same.sum_eq, all, weightOfSample, List.map_map, List.map_map]
  rfl

namespace Sleet
variable {H : Type} [DecidableEq H] [Blake3 H]
variable {s s' : Sleet H} {acks : List (Response H)}

def ballots (acks : List (Response H)) : List (Id × Bool) :=
  acks.filterMap fun
    | .queryTxAck id _ outcome => some (id, outcome)
    | _ => none

omit [DecidableEq H] [Blake3 H] in
theorem outcomes_weigh {committee : HashMap Id (SocketAddr × Weight)}
    {os : List (Id × Weight × Bool)} (counted : outcomes committee acks = some os) :
    os = weigh committee (ballots acks) := by
  induction acks generalizing os with
  | nil =>
    cases counted
    rfl
  | cons ack acks ih =>
    cases ack with
    | queryTxAck id hash outcome =>
      obtain ⟨rest, found, rfl⟩ := Option.map_eq_some_iff.mp counted
      rw [ih found]
      cases known : committee.lookup id with
      | none => simp [weigh, ballots, known]
      | some entry => simp [weigh, ballots, known]
    | _ => contradiction

omit [DecidableEq H] [Blake3 H] in
theorem ballots_unanimous {sampled : List (Id × SocketAddr)} {hash : H}
    (unanimous : acks.Perm (sampled.map fun v => .queryTxAck v.1 hash true)) :
    (ballots acks).Perm (sampled.map fun v => (v.1, true)) := by
  have all : ballots (sampled.map fun v => Response.queryTxAck v.1 hash true) =
      sampled.map fun v => (v.1, true) := by
    simp [ballots, List.filterMap_map]
  rw [← all]
  exact unanimous.filterMap _

omit [DecidableEq H] [Blake3 H] in
theorem outcomes_some (committee : HashMap Id (SocketAddr × Weight))
    (answers : ∀ ack ∈ acks, ∃ id hash outcome, ack = .queryTxAck id hash outcome) :
    ∃ os, outcomes committee acks = some os := by
  induction acks with
  | nil => exact ⟨[], rfl⟩
  | cons ack acks ih =>
    obtain ⟨⟨id, hash, outcome, rfl⟩, rest⟩ := List.forall_mem_cons.mp answers
    obtain ⟨os, counted⟩ := ih rest
    rw [outcomes, counted]
    exact ⟨_, rfl⟩

omit [DecidableEq H] [Blake3 H] in
/-- A query succeeds by the weight of the ids that say yes. -/
theorem succeeds_iff {os : List (Id × Weight × Bool)}
    (counted : outcomes s.committee acks = some os) : s.Succeeds acks ↔
      ALPHA < ((yeses (ballots acks)).map (weightOf s.committee)).sum := by
  unfold Succeeds
  rw [counted, ← sumOutcomes_weigh, ← outcomes_weigh counted]
  simp

omit [Blake3 H] in
theorem updatePreference_dag {hash : H} (left : (updatePreference hash s).state? = some s') :
    s'.dag = s.dag := by
  unfold updatePreference at left
  split at left
  · cases left; rfl
  · split at left
    · cases left
    · cases left; rfl
    · split at left
      · cases left
      · cases left; rfl
      · rw [Outcome.state?_lift] at left
        obtain ⟨cg, _, rfl⟩ := Option.map_eq_some_iff.mp left
        rfl

omit [Blake3 H] in
theorem computeAcceptedTxs_dag {hash : H} {new : List H}
    (done : s.computeAcceptedTxs hash = some (new, s')) : s'.dag = s.dag := by
  obtain ⟨⟨new', memo, t⟩, rounds, eq⟩ := Option.map_eq_some_iff.mp done
  cases eq
  refine foldlM_invariant (fun acc => acc.2.2.dag = s.dag) rfl ?_ rounds
  rintro v _ ⟨new, memo, t⟩ acc same round
  simp only [acceptRound] at round
  split at round
  · cases round
    exact same
  · split at round
    · cases round
    · cases round
      exact same
    · split at round
      · cases round
        exact same
      · cases round

theorem passQuery_chit {tx : Tx H} {new : List H} (passed : s.passQuery tx = some (new, s')) :
    s'.dag.chits.lookup tx.hash = some 1 := by
  unfold passQuery at passed
  split at passed
  · cases passed
  · rename_i d chit
    split at passed
    · cases passed
    · rename_i s₁ updated
      have same : s₁.dag = d :=
        Outcome.forEach_rel (fun s t : Sleet H => t.dag = s.dag) (fun _ => rfl)
          (fun _ _ _ first second => second.trans first) updatePreference _
          (fun _ _ _ _ => updatePreference_dag) { s with dag := d } s₁
          (congrArg Outcome.state? (Outcome.unwrap_eq_some.mp updated))
      split at passed
      · cases passed
      · rw [computeAcceptedTxs_dag passed]
        obtain ⟨_, rfl⟩ := DAG.setChit_ok.mp (Outcome.unwrap_eq_some.mp chit)
        rw [same]
        exact Finmap.lookup_insert _

theorem Succeeds.chit {tx : Tx H} {new : List H} (succeeds : s.Succeeds acks)
    (done : s.queryComplete tx acks = some (new, s')) : s'.dag.chits.lookup tx.hash = some 1 := by
  obtain ⟨os, counted, enough⟩ := succeeds
  rw [queryComplete, show outcomes s.committee acks = some os from counted] at done
  simp only [enough, if_true] at done
  obtain ⟨⟨new₁, s₁⟩, passed, rest⟩ := Option.bind_eq_some_iff.mp done
  obtain ⟨s₂, marked, eq⟩ := Option.map_eq_some_iff.mp rest
  cases eq
  rw [(markQueried_some marked).2.1]
  exact passQuery_chit passed

omit [DecidableEq H] [Blake3 H] in
theorem sample_ok {order : HashOrder H} {minimumWeight : Weight} {sampled : List (Id × SocketAddr)}
    (drawn : s.sample order minimumWeight = .ok sampled) :
    minimumWeight ≤ weightOfSample s.committee sampled := by
  unfold sample at drawn
  simp only at drawn
  split at drawn
  · rename_i found
    cases drawn
    exact sampleWeighted_weight found
  · cases drawn

end Sleet

namespace Hail
variable {H : Type} [LinearOrder H] [BlockDigest H] [Sortition H]

def ballots (acks : List (BlockResponse H)) : List (Id × Bool) :=
  acks.filterMap fun
    | .queryBlockAck id _ outcome => some (id, outcome)
    | .other => none

omit [LinearOrder H] [BlockDigest H] [Sortition H] in
theorem ballots_unanimous {sampled : List (Id × SocketAddr)} {hash : H}
    {acks : List (BlockResponse H)}
    (unanimous : acks.Perm (sampled.map fun v => .queryBlockAck v.1 hash true)) :
    (ballots acks).Perm (sampled.map fun v => (v.1, true)) := by
  have all : ballots (sampled.map fun v => BlockResponse.queryBlockAck v.1 hash true) =
      sampled.map fun v => (v.1, true) := by
    simp [ballots, List.filterMap_map]
  rw [← all]
  exact unanimous.filterMap _

omit [LinearOrder H] [BlockDigest H] [Sortition H] in
theorem outcomes_weigh (committee : HashMap Id (SocketAddr × Weight))
    (acks : List (BlockResponse H)) : outcomes committee acks = weigh committee (ballots acks) := by
  induction acks with
  | nil => rfl
  | cons ack acks ih =>
    unfold outcomes weigh ballots at ih ⊢
    cases ack with
    | queryBlockAck id hash outcome =>
      cases known : committee.lookup id with
      | none => simp [known, ih]
      | some entry => simp [known, ih]
    | other => simp [ih]

omit [LinearOrder H] [BlockDigest H] [Sortition H] in
theorem passes_iff {s : Hail H} {acks : List (BlockResponse H)} : s.passes acks = true ↔
    ALPHA ≤ ((yeses (ballots acks)).map (weightOf s.committee.committee)).sum := by
  rw [passes, decide_eq_true_iff, outcomes_weigh, sumOutcomes_weigh]

omit [LinearOrder H] [BlockDigest H] [Sortition H] in
theorem sample_ok {order : HailOrder H} {s : Hail H} {minimumWeight : Weight}
    {sampled : List (Id × SocketAddr)} (drawn : s.sample order minimumWeight = .ok sampled) :
    minimumWeight ≤ weightOfSample s.committee.committee sampled := by
  unfold sample at drawn
  simp only at drawn
  split at drawn
  · rename_i found
    cases drawn
    exact sampleWeighted_weight found
  · cases drawn

theorem passes_chit {order : HailOrder H} {s s' : Hail H} {block : HailBlock H}
    {acks : List (BlockResponse H)} {accepted : Option (Vertex H)} (passes : s.passes acks = true)
    (done : s.queryComplete order block acks = some (accepted, s')) :
    s'.dag.chits.lookup block.vertex = some 1 := by
  rw [queryComplete, if_pos passes] at done
  obtain ⟨⟨accepted₁, s₁⟩, passed, eq⟩ := Option.map_eq_some_iff.mp done
  cases eq
  obtain ⟨_, dag⟩ := DAG.setChit_ok.mp (passQuery_votes passed).1.chit
  rw [show (s₁.markQueried block).dag = s₁.dag from rfl, dag]
  exact Finmap.lookup_insert _

end Hail

section Queries
variable {H K : Type} [DecidableEq H] [Blake3 H] [LinearOrder K] [BlockDigest K] [Sortition K]

open Actor in
/-- Two validators weigh one half each. One of them is sampled and says yes, and the query
fails: the chit stays 0. -/
theorem unanimous_half_fails :
    ∃ steps w, Run step Actor.sample steps w ∧
      w.sleet.sample ascendingOrder ALPHA = .ok [(peer, "peer")] ∧
      ¬ w.sleet.Succeeds [.queryTxAck peer (transfer [] 0).hash true] ∧
      ∃ s, w.sleet.queryComplete (transfer [] 0) [.queryTxAck peer (transfer [] 0).hash true] =
        some ([], s) ∧ s.dag.chits.lookup (transfer [] 0).hash = some 0 := by
  have found : (runSample [.liveCommittee (((∅ : HashMap Id (SocketAddr × Weight)).insert peer
      ("peer", 1 / 2)).insert ⟨2⟩ ("other", 1 / 2)) (coins 1), receive (transfer [] 0)]).any
      fun r => decide (r.2.sleet.sample ascendingOrder ALPHA = .ok [(peer, "peer")] ∧
        ¬ r.2.sleet.Succeeds [.queryTxAck peer (transfer [] 0).hash true] ∧
        (r.2.sleet.queryComplete (transfer [] 0) [.queryTxAck peer (transfer [] 0).hash true]).any
          fun q => decide (q.1 = [] ∧ q.2.dag.chits.lookup (transfer [] 0).hash = some 0)) := by
    decide +kernel
  obtain ⟨steps, w, run, facts⟩ := exec_any found
  obtain ⟨drawn, fails, completed⟩ := of_decide_eq_true facts
  obtain ⟨⟨new, s⟩, done, chit⟩ := (Option.any_eq_true _ _).mp completed
  obtain ⟨rfl, zero⟩ := of_decide_eq_true chit
  exact ⟨steps, w, run, drawn, fails, s, done, zero⟩

/-- If all sampled validators say yes, a query of sleet succeeds unless they weigh exactly the
threshold, and one of hail succeeds in any case. A query that succeeds sets the chit. -/
theorem unanimous_sample_passes :
    (∀ (order : HashOrder H) (s : Sleet H) (tx : Tx H) (sampled : List (Id × SocketAddr))
      (acks : List (Response H)), s.sample order ALPHA = .ok sampled →
      acks.Perm (sampled.map fun v => .queryTxAck v.1 tx.hash true) →
        (s.Succeeds acks ↔ weightOfSample s.committee sampled ≠ ALPHA) ∧
        (weightOfSample s.committee sampled ≠ ALPHA → ∀ new s',
          s.queryComplete tx acks = some (new, s') → s'.dag.chits.lookup tx.hash = some 1)) ∧
    ∀ (order : HailOrder K) (s : Hail K) (block : HailBlock K) (sampled : List (Id × SocketAddr))
      (acks : List (BlockResponse K)), s.sample order Hail.ALPHA = .ok sampled →
      acks.Perm (sampled.map fun v => .queryBlockAck v.1 block.hash true) →
        s.passes acks = true ∧ ∀ order' accepted s',
          s.queryComplete order' block acks = some (accepted, s') →
            s'.dag.chits.lookup block.vertex = some 1 := by
  constructor
  · intro order s tx sampled acks drawn unanimous
    have answers : ∀ ack ∈ acks, ∃ id hash outcome, ack = .queryTxAck id hash outcome := by
      intro ack listed
      obtain ⟨v, _, rfl⟩ := List.mem_map.mp (unanimous.mem_iff.mp listed)
      exact ⟨v.1, tx.hash, true, rfl⟩
    obtain ⟨os, counted⟩ := Sleet.outcomes_some s.committee answers
    have exactly : s.Succeeds acks ↔ weightOfSample s.committee sampled ≠ ALPHA := by
      rw [Sleet.succeeds_iff counted, yeses_unanimous (Sleet.ballots_unanimous unanimous)]
      exact ⟨ne_of_gt, lt_of_le_of_ne' (Sleet.sample_ok drawn)⟩
    exact ⟨exactly, fun other new s' done => (exactly.mpr other).chit done⟩
  · intro order s block sampled acks drawn unanimous
    have passes : s.passes acks = true := by
      rw [Hail.passes_iff, yeses_unanimous (Hail.ballots_unanimous unanimous)]
      exact Hail.sample_ok drawn
    exact ⟨passes, fun order' accepted s' done => Hail.passes_chit passes done⟩

open Actor in
/-- The only validator of sleet and the other validator of hail say yes. -/
theorem unanimous_sample_passes_one :
    (∃ steps w, Run step Actor.sample steps w ∧
      w.sleet.Succeeds [.queryTxAck peer (transfer [] 0).hash true]) ∧
    ∃ steps w, Run HailActor.step HailActor.sample steps w ∧
      w.hail.passes [.queryBlockAck ⟨1⟩ HailActor.genesis.hash true] = true := by
  constructor
  · have found : (runSample [joins 1]).any fun r =>
        decide (r.2.sleet.sample ascendingOrder ALPHA = .ok [(peer, "peer")] ∧
          weightOfSample r.2.sleet.committee [(peer, "peer")] ≠ ALPHA) := by
      decide +kernel
    obtain ⟨steps, w, run, facts⟩ := exec_any found
    obtain ⟨drawn, other⟩ := of_decide_eq_true facts
    have passes := (unanimous_sample_passes (K := Digest)).1 ascendingOrder w.sleet (transfer [] 0)
      _ _ drawn (.refl _)
    exact ⟨steps, w, run, passes.1.mpr other⟩
  · have found : (HailActor.runSample [HailActor.joins 1]).any fun r =>
        decide (r.2.hail.sample ascendingVertices Hail.ALPHA = .ok [(⟨1⟩, "peer")]) := by
      decide +kernel
    obtain ⟨steps, w, run, drawn⟩ := exec_any found
    have passes := (unanimous_sample_passes (H := Digest)).2 ascendingVertices w.hail
      HailActor.genesis _ _ (of_decide_eq_true drawn) (.refl _)
    exact ⟨steps, w, run, passes.1⟩

omit [DecidableEq H] [Blake3 H] [LinearOrder K] [BlockDigest K] [Sortition K] in
/-- One validator, one vote: where nobody of positive weight says yes twice, the distinct
members of the committee that say yes carry the weight of a query that succeeds. For every
committee this is so of the acks in which nobody says yes twice, and of no others. -/
theorem distinct_yeses_carry :
    (∀ (s : Sleet H) (acks : List (Response H)),
      (∀ id ∈ s.committee, 1 < (yeses (Sleet.ballots acks)).count id →
        weightOf s.committee id ≤ 0) → s.Succeeds acks →
      ALPHA < ∑ id ∈ members s.committee (yeses (Sleet.ballots acks)), weightOf s.committee id) ∧
    (∀ (s : Hail K) (acks : List (BlockResponse K)),
      (∀ id ∈ s.committee.committee, 1 < (yeses (Hail.ballots acks)).count id →
        weightOf s.committee.committee id ≤ 0) → s.passes acks = true →
      Hail.ALPHA ≤ ∑ id ∈ members s.committee.committee (yeses (Hail.ballots acks)),
        weightOf s.committee.committee id) ∧
    (∀ (s : Sleet H) (acks : List (Response H)),
      (∀ ack ∈ acks, ∃ id hash outcome, ack = .queryTxAck id hash outcome) →
      ((∀ committee, Sleet.Succeeds { s with committee := committee } acks →
        ALPHA < ∑ id ∈ members committee (yeses (Sleet.ballots acks)), weightOf committee id) ↔
        (yeses (Sleet.ballots acks)).Nodup)) ∧
    ∀ (s : Hail K) (acks : List (BlockResponse K)),
      (∀ committee, Hail.passes { s with committee.committee := committee } acks = true →
        Hail.ALPHA ≤ ∑ id ∈ members committee (yeses (Hail.ballots acks)),
          weightOf committee id) ↔
        (yeses (Hail.ballots acks)).Nodup := by
  have never : ∀ {ids : List Id}, ids.Nodup → ∀ {committee : HashMap Id (SocketAddr × Weight)},
      ∀ id ∈ committee, 1 < ids.count id → weightOf committee id ≤ 0 := fun distinct _ id _ twice =>
    absurd (List.nodup_iff_count_le_one.mp distinct id) (Nat.not_le.mpr twice)
  have sleet : ∀ (s : Sleet H) (acks : List (Response H)),
      (∀ id ∈ s.committee, 1 < (yeses (Sleet.ballots acks)).count id →
        weightOf s.committee id ≤ 0) → s.Succeeds acks → ALPHA <
      ∑ id ∈ members s.committee (yeses (Sleet.ballots acks)), weightOf s.committee id := by
    intro s acks once succeeds
    obtain ⟨os, counted, _⟩ := id succeeds
    exact ((Sleet.succeeds_iff counted).mp succeeds).trans_le (sum_weights_le once)
  have hail : ∀ (s : Hail K) (acks : List (BlockResponse K)),
      (∀ id ∈ s.committee.committee, 1 < (yeses (Hail.ballots acks)).count id →
        weightOf s.committee.committee id ≤ 0) → s.passes acks = true → Hail.ALPHA ≤
      ∑ id ∈ members s.committee.committee (yeses (Hail.ballots acks)),
        weightOf s.committee.committee id := fun s acks once passes =>
    (Hail.passes_iff.mp passes).trans (sum_weights_le once)
  refine ⟨sleet, hail, fun s acks answers => ⟨fun carries => ?_, fun distinct committee => ?_⟩,
    fun s acks => ⟨fun carries => ?_, fun distinct committee => ?_⟩⟩
  · refine List.nodup_iff_count_le_one.mpr fun id => Nat.not_lt.mp fun twice => ?_
    obtain ⟨heavy, light⟩ := lightest_weights twice
    obtain ⟨os, counted⟩ := Sleet.outcomes_some (lightest id) answers
    exact lt_asymm light (carries (lightest id) ((Sleet.succeeds_iff counted).mpr heavy))
  · exact sleet { s with committee := committee } acks (never distinct)
  · refine List.nodup_iff_count_le_one.mpr fun id => Nat.not_lt.mp fun twice => ?_
    obtain ⟨heavy, light⟩ := lightest_weights twice
    have half : Hail.ALPHA = ALPHA := rfl
    rw [← half] at heavy light
    exact light.not_ge (carries (lightest id) (Hail.passes_iff.mpr heavy.le))
  · exact hail { s with committee.committee := committee } acks (never distinct)

def unequal : HashMap Id (SocketAddr × Weight) :=
  ((∅ : HashMap Id (SocketAddr × Weight)).insert (⟨1⟩ : Id) ("light", 3 / 10)).insert (⟨2⟩ : Id)
    ("heavy", 7 / 10)

def unequalSleet : Sleet Digest :=
  { Sleet.new ascendingOrder ⟨0⟩ "node" [] with committee := unequal }

def unequalHail : Hail Digest :=
  { Hail.new ⟨0⟩ with committee := { Committee.empty ⟨0⟩ with committee := unequal } }

/-- The acks of two validators, or of one that answers for both. -/
def twoAcks (second : Id) : List (Response Digest) :=
  [.queryTxAck ⟨1⟩ ⟨0⟩ true, .queryTxAck second ⟨0⟩ true]

def twoBlockAcks (second : Id) : List (BlockResponse Digest) :=
  [.queryBlockAck ⟨1⟩ ⟨0⟩ true, .queryBlockAck second ⟨0⟩ true]

/-- The light validator says yes twice and carries the queries alone. -/
theorem repeated_yes_carries :
    (unequalSleet.Succeeds (twoAcks ⟨1⟩) ∧
      ¬ ALPHA < ∑ id ∈ members unequal (yeses (Sleet.ballots (twoAcks ⟨1⟩))),
        weightOf unequal id) ∧
    unequalHail.passes (twoBlockAcks ⟨1⟩) = true ∧
      ¬ Hail.ALPHA ≤ ∑ id ∈ members unequal (yeses (Hail.ballots (twoBlockAcks ⟨1⟩))),
        weightOf unequal id := by
  decide +kernel

/-- Both say yes once. -/
theorem distinct_yeses_carry_two :
    ALPHA < ∑ id ∈ members unequal (yeses (Sleet.ballots (twoAcks ⟨2⟩))), weightOf unequal id ∧
    Hail.ALPHA ≤ ∑ id ∈ members unequal (yeses (Hail.ballots (twoBlockAcks ⟨2⟩))),
      weightOf unequal id := by
  constructor
  · refine (distinct_yeses_carry (K := Digest)).1 unequalSleet (twoAcks ⟨2⟩) ?_ (by decide +kernel)
    exact fun id _ twice => absurd twice (Nat.not_lt.mpr (List.nodup_iff_count_le_one.mp
      (by decide +kernel) id))
  · refine (distinct_yeses_carry (H := Digest)).2.1 unequalHail (twoBlockAcks ⟨2⟩) ?_
      (by decide +kernel)
    exact fun id _ twice => absurd twice (Nat.not_lt.mpr (List.nodup_iff_count_le_one.mp
      (by decide +kernel) id))

end Queries
end Subzero
