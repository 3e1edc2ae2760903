import Mathlib.Algebra.BigOperators.Field
import Subzero.Alpha.Operation
import Subzero.Alpha.Spending
import Subzero.Ballots
import Subzero.Ice.Actor
import Subzero.Lib.Build

/-! The live committee. Alpha sends the stakes, one entry for each stake output, and ice
keeps those of the validators that it holds to be live. The entries of one validator are
all added to the total, but only the last of them counts for its weight. -/
namespace Subzero.Ice

/-- `ice::LiveCommittee` -/
structure LiveCommittee where
  totalStakingCapacity : UInt64
  validators : List (Id × UInt64)

structure Committee where
  selfStakingCapacity : UInt64
  sleetValidators : HashMap Id (SocketAddr × Weight)
  hailValidators : HashMap Id (SocketAddr × UInt64)

/-- What the first loop of the handler collects. -/
structure Stakes where
  hailValidators : HashMap Id (SocketAddr × UInt64)
  selfStakingCapacity : Option UInt64
  totalStakingCapacity : UInt64

namespace Actor
variable (ice : Actor)

def addStake (build : Build) (stakes : Stakes) (validator : Id × UInt64) : Option Stakes :=
  let (id, amount) := validator
  if id = ice.id then
    (build.add64 stakes.totalStakingCapacity amount).map fun total =>
      { stakes with totalStakingCapacity := total, selfStakingCapacity := some amount }
  else
    match ice.reservoir.getLiveEndpoint id with
    | some ip =>
      (build.add64 stakes.totalStakingCapacity amount).map fun total =>
        { stakes with
          totalStakingCapacity := total
          hailValidators := stakes.hailValidators.insert id (ip, amount) }
    | none => some stakes

def addStakes (build : Build) : List (Id × UInt64) → Stakes → Option Stakes
  | [], stakes => some stakes
  | validator :: rest, stakes =>
    (ice.addStake build stakes validator).bind (addStakes build rest)

/-- The entries of the other validators that are live, with their endpoints. -/
def liveEntries (validators : List (Id × UInt64)) : List (Id × SocketAddr × UInt64) :=
  (validators.filter fun v => v.1 ≠ ice.id).filterMap fun v =>
    (ice.reservoir.getLiveEndpoint v.1).map fun ip => (v.1, ip, v.2)

/-- The total in the message is not read. `none` is a panic: an overflow, or a node without
a stake. -/
def liveCommittee (build : Build) (msg : LiveCommittee) : Option Committee :=
  (ice.addStakes build msg.validators ⟨∅, none, 0⟩).bind fun stakes =>
    let sleetValidators := HashMap.collect
      ((ice.liveEntries msg.validators).map fun e =>
        (e.1, e.2.1, percentOf e.2.2 stakes.totalStakingCapacity)) ∅
    stakes.selfStakingCapacity.map fun capacity =>
      ⟨capacity, sleetValidators, stakes.hailValidators⟩

end Actor

/-- The stakes of a validator, one for each of its entries. -/
def stakesOf (validators : List (Id × UInt64)) (id : Id) : List UInt64 :=
  (validators.filter fun v => v.1 = id).map Prod.snd

/-- The total stake of a validator. -/
def stakeOf (validators : List (Id × UInt64)) (id : Id) : Nat :=
  ((stakesOf validators id).map UInt64.toNat).sum

theorem stakesOf_cons (id id' : Id) (amount : UInt64) (validators : List (Id × UInt64)) :
    stakesOf ((id, amount) :: validators) id' =
      if id = id' then amount :: stakesOf validators id' else stakesOf validators id' := by
  unfold stakesOf
  rw [List.filter_cons]
  by_cases same : id = id' <;> simp [same]

theorem stakesOf_append (validators later : List (Id × UInt64)) (id : Id) :
    stakesOf (validators ++ later) id = stakesOf validators id ++ stakesOf later id := by
  rw [stakesOf, List.filter_append, List.map_append]
  rfl

theorem mem_stakesOf {validators : List (Id × UInt64)} {id : Id} {amount : UInt64} :
    amount ∈ stakesOf validators id ↔ (id, amount) ∈ validators := by
  simp [stakesOf]

/-- The last stake of a validator is its total stake exactly if the others are 0. -/
theorem last_eq_stakeOf {validators : List (Id × UInt64)} {id : Id} {amount : UInt64}
    (last : (stakesOf validators id).getLast? = some amount) :
    amount.toNat = stakeOf validators id ↔
      ∀ other ∈ (stakesOf validators id).dropLast, other = 0 := by
  obtain ⟨others, split⟩ := List.getLast?_eq_some_iff.mp last
  rw [stakeOf, split, List.dropLast_concat, List.map_append, List.sum_append]
  have rest : (others.map UInt64.toNat).sum = 0 ↔ ∀ other ∈ others, other = 0 := by
    rw [List.sum_eq_zero_iff]
    simp [← UInt64.toNat_inj]
  rw [← rest]
  simp

theorem last_stake {validators : List (Id × UInt64)} {id : Id} {amount : UInt64}
    (zeros : ∀ other ∈ (stakesOf validators id).dropLast, other = 0)
    (listed : (id, amount) ∈ validators) :
    ∃ stake, (stakesOf validators id).getLast? = some stake ∧
      stake.toNat = stakeOf validators id := by
  have found := List.getLast?_eq_some_getLast (List.ne_nil_of_mem (mem_stakesOf.mpr listed))
  exact ⟨_, found, (last_eq_stakeOf found).mpr zeros⟩

/-- The stakes of some validators are those of their entries. -/
theorem sum_stakeOf (ids : Finset Id) (validators : List (Id × UInt64)) :
    ∑ id ∈ ids, stakeOf validators id =
      ((validators.filter fun v => v.1 ∈ ids).map fun v => v.2.toNat).sum := by
  induction validators with
  | nil => exact Finset.sum_eq_zero fun _ _ => rfl
  | cons v validators ih =>
    have step : ∀ id, stakeOf (v :: validators) id =
        (if v.1 = id then v.2.toNat else 0) + stakeOf validators id := by
      intro id
      rw [stakeOf, stakesOf_cons, stakeOf]
      split
      · rw [List.map_cons, List.sum_cons]
      · rw [Nat.zero_add]
    rw [Finset.sum_congr rfl fun id _ => step id, Finset.sum_add_distrib, ih, Finset.sum_ite_eq,
      List.filter_cons]
    by_cases listed : v.1 ∈ ids <;> simp [listed]

namespace Actor
variable {ice : Actor}

/-- The node counts a validator that is itself or that is live. -/
def Counts (ice : Actor) (id : Id) : Prop :=
  id = ice.id ∨ (ice.reservoir.getLiveEndpoint id).isSome

instance (id : Id) : Decidable (ice.Counts id) :=
  inferInstanceAs (Decidable (id = ice.id ∨ (ice.reservoir.getLiveEndpoint id).isSome))

/-- The total stake of this node and of all live validators. -/
def liveStake (ice : Actor) (validators : List (Id × UInt64)) : Nat :=
  ((validators.filter fun v => ice.Counts v.1).map fun v => v.2.toNat).sum

theorem mem_liveEntries {validators : List (Id × UInt64)} {id : Id} {ip : SocketAddr}
    {amount : UInt64} :
    (id, ip, amount) ∈ ice.liveEntries validators ↔
      (id, amount) ∈ validators ∧ id ≠ ice.id ∧ ice.reservoir.getLiveEndpoint id = some ip := by
  simp only [liveEntries, List.mem_filterMap, List.mem_filter, Option.map_eq_some_iff]
  constructor
  · rintro ⟨⟨i, a⟩, ⟨listed, other⟩, ip', live, same⟩
    cases same
    exact ⟨listed, of_decide_eq_true other, live⟩
  · rintro ⟨listed, other, live⟩
    exact ⟨(id, amount), ⟨listed, decide_eq_true other⟩, ip, live, rfl⟩

theorem liveStake_append (validators later : List (Id × UInt64)) :
    ice.liveStake (validators ++ later) = ice.liveStake validators + ice.liveStake later := by
  rw [liveStake, List.filter_append, List.map_append, List.sum_append]
  rfl

theorem liveEntries_append (validators later : List (Id × UInt64)) :
    ice.liveEntries (validators ++ later) =
      ice.liveEntries validators ++ ice.liveEntries later := by
  rw [liveEntries, List.filter_append, List.filterMap_append]
  rfl

section Entries
variable {id : Id} {amount : UInt64} {validators : List (Id × UInt64)}

theorem liveStake_cons : ice.liveStake ((id, amount) :: validators) =
    (if ice.Counts id then amount.toNat else 0) + ice.liveStake validators := by
  unfold liveStake
  rw [List.filter_cons]
  by_cases counts : ice.Counts id <;> simp [counts]

theorem liveEntries_own (own : id = ice.id) :
    ice.liveEntries ((id, amount) :: validators) = ice.liveEntries validators := by
  simp [liveEntries, own]

theorem liveEntries_live (other : id ≠ ice.id) {ip : SocketAddr}
    (live : ice.reservoir.getLiveEndpoint id = some ip) :
    ice.liveEntries ((id, amount) :: validators) =
      (id, ip, amount) :: ice.liveEntries validators := by
  simp [liveEntries, other, live]

theorem liveEntries_faulty (other : id ≠ ice.id)
    (faulty : ice.reservoir.getLiveEndpoint id = none) :
    ice.liveEntries ((id, amount) :: validators) = ice.liveEntries validators := by
  simp [liveEntries, other, faulty]

end Entries

/-- The live entries of a validator have its stakes. -/
theorem liveEntries_of {id : Id} {ip : SocketAddr} (other : id ≠ ice.id)
    (live : ice.reservoir.getLiveEndpoint id = some ip) (validators : List (Id × UInt64)) :
    ((ice.liveEntries validators).filter fun e => e.1 = id).map Prod.snd =
      (stakesOf validators id).map fun amount => (ip, amount) := by
  induction validators with
  | nil => rfl
  | cons v validators ih =>
    obtain ⟨k, amount⟩ := v
    rw [stakesOf_cons]
    by_cases same : k = id
    · subst same
      rw [liveEntries_live other live, if_pos rfl, List.map_cons, ← ih]
      simp
    · rw [if_neg same, ← ih]
      by_cases own : k = ice.id
      · rw [liveEntries_own own]
      · cases found : ice.reservoir.getLiveEndpoint k with
        | none => rw [liveEntries_faulty own found]
        | some ip' =>
          rw [liveEntries_live own found]
          simp [same]

/-- Of the entries of a live validator the map of stakes keeps the last one. -/
theorem lookup_liveEntries {validators : List (Id × UInt64)} {id : Id} {ip : SocketAddr}
    {amount : UInt64} :
    (HashMap.collect (ice.liveEntries validators) ∅).lookup id = some (ip, amount) ↔
      id ≠ ice.id ∧ ice.reservoir.getLiveEndpoint id = some ip ∧
        (stakesOf validators id).getLast? = some amount := by
  constructor
  · intro found
    have listed : id ∈ (ice.liveEntries validators).map Prod.fst := by
      rw [← List.mem_toFinset, ← HashMap.keys_collect]
      exact HashMap.mem_keys_of_lookup found
    obtain ⟨⟨k, ip', amount'⟩, entry, rfl⟩ := List.mem_map.mp listed
    obtain ⟨_, other, live⟩ := mem_liveEntries.mp entry
    rw [HashMap.lookup_collect_eq, liveEntries_of other live, Finmap.lookup_empty, Option.or_none,
      List.getLast?_map, Option.map_eq_some_iff] at found
    obtain ⟨last, here, same⟩ := found
    cases same
    exact ⟨other, live, here⟩
  · rintro ⟨other, live, last⟩
    rw [HashMap.lookup_collect_eq, liveEntries_of other live, List.getLast?_map, last]
    rfl

/-- The validators that are live, this node apart. -/
def livePeers (ice : Actor) (validators : List (Id × UInt64)) : Finset Id :=
  ((ice.liveEntries validators).map Prod.fst).toFinset

theorem mem_livePeers {validators : List (Id × UInt64)} {id : Id} :
    id ∈ ice.livePeers validators ↔ (∃ amount, (id, amount) ∈ validators) ∧ id ≠ ice.id ∧
      ∃ ip, ice.reservoir.getLiveEndpoint id = some ip := by
  rw [livePeers, List.mem_toFinset, List.mem_map]
  constructor
  · rintro ⟨⟨k, ip, amount⟩, entry, rfl⟩
    obtain ⟨listed, other, live⟩ := mem_liveEntries.mp entry
    exact ⟨⟨amount, listed⟩, other, ip, live⟩
  · rintro ⟨⟨amount, listed⟩, other, ip, live⟩
    exact ⟨(id, ip, amount), mem_liveEntries.mpr ⟨listed, other, live⟩, rfl⟩

/-- The stake that counts is that of the node and that of its live peers. -/
theorem liveStake_eq (validators : List (Id × UInt64)) :
    ice.liveStake validators =
      stakeOf validators ice.id + ∑ id ∈ ice.livePeers validators, stakeOf validators id := by
  have absent : ice.id ∉ ice.livePeers validators := fun member =>
    (mem_livePeers.mp member).2.1 rfl
  rw [← Finset.sum_insert absent, sum_stakeOf, liveStake]
  congr 2
  refine List.filter_congr fun v listed => ?_
  rw [decide_eq_decide, Finset.mem_insert, mem_livePeers, Counts, Option.isSome_iff_exists]
  by_cases own : v.1 = ice.id
  · simp [own]
  · simp only [own, false_or, ne_eq, not_false_eq_true, true_and]
    exact (and_iff_right ⟨v.2, listed⟩).symm

/-- A total that is counted up by some stake: it is exact where overflow is checked for. -/
def Totals (build : Build) (before : UInt64) (stake : Nat) (after : UInt64) : Prop :=
  after.toNat = (before.toNat + stake) % 2 ^ 64 ∧
    (build = .checked → before.toNat + stake < 2 ^ 64)

theorem Totals.add64 {build : Build} {before amount after : UInt64}
    (added : build.add64 before amount = some after) :
    Totals build before amount.toNat after := by
  cases build with
  | checked =>
    simp only [Build.add64] at added
    split at added
    · rename_i fits
      obtain rfl := Option.some.inj added
      exact ⟨UInt64.toNat_add _ _, fun _ => fits⟩
    · contradiction
  | wrapping =>
    obtain rfl := Option.some.inj added
    exact ⟨UInt64.toNat_add _ _, fun same => by cases same⟩

/-- What one entry adds. -/
theorem addStake_some {build : Build} {v : Id × UInt64} {stakes stakes' : Stakes}
    (added : ice.addStake build stakes v = some stakes') :
    stakes'.hailValidators = HashMap.collect (ice.liveEntries [v]) stakes.hailValidators ∧
      stakes'.selfStakingCapacity =
        (stakesOf [v] ice.id).getLast?.or stakes.selfStakingCapacity ∧
      Totals build stakes.totalStakingCapacity (ice.liveStake [v])
        stakes'.totalStakingCapacity := by
  obtain ⟨id, amount⟩ := v
  rw [liveStake_cons, stakesOf_cons]
  unfold addStake at added
  by_cases own : id = ice.id
  · simp only [if_pos own] at added
    obtain ⟨total, summed, rfl⟩ := Option.map_eq_some_iff.mp added
    rw [liveEntries_own own, if_pos own, if_pos (.inl own)]
    exact ⟨rfl, rfl, .add64 summed⟩
  · simp only [if_neg own] at added
    rw [if_neg own]
    cases live : ice.reservoir.getLiveEndpoint id with
    | some ip =>
      rw [live] at added
      obtain ⟨total, summed, rfl⟩ := Option.map_eq_some_iff.mp added
      have counts : ice.Counts id := .inr (by rw [live]; rfl)
      rw [liveEntries_live own live, if_pos counts]
      exact ⟨rfl, rfl, .add64 summed⟩
    | none =>
      rw [live] at added
      obtain rfl := Option.some.inj added
      have missing : ¬ ice.Counts id := by simp [Counts, own, live]
      rw [liveEntries_faulty own live, if_neg missing]
      have small := stakes.totalStakingCapacity.toNat_lt
      exact ⟨rfl, rfl, (Nat.mod_eq_of_lt small).symm, fun _ => small⟩

/-- What the first loop collects if it returns. -/
theorem addStakes_some {build : Build} {validators : List (Id × UInt64)}
    {stakes stakes' : Stakes} (looped : ice.addStakes build validators stakes = some stakes') :
    stakes'.hailValidators = HashMap.collect (ice.liveEntries validators) stakes.hailValidators ∧
      stakes'.selfStakingCapacity =
        (stakesOf validators ice.id).getLast?.or stakes.selfStakingCapacity ∧
      Totals build stakes.totalStakingCapacity (ice.liveStake validators)
        stakes'.totalStakingCapacity := by
  induction validators generalizing stakes with
  | nil =>
    obtain rfl := Option.some.inj looped
    have small := stakes.totalStakingCapacity.toNat_lt
    exact ⟨rfl, rfl, (Nat.mod_eq_of_lt small).symm, fun _ => small⟩
  | cons v validators ih =>
    have stake : ice.liveStake (v :: validators) = _ := liveStake_append [v] validators
    have entries : ice.liveEntries (v :: validators) = _ := liveEntries_append [v] validators
    have own : stakesOf (v :: validators) ice.id = _ := stakesOf_append [v] validators ice.id
    obtain ⟨next, added, later⟩ := Option.bind_eq_some_iff.mp looped
    obtain ⟨hail, self, total, fits⟩ := addStake_some added
    obtain ⟨hail', self', total', fits'⟩ := ih later
    rw [stake, entries, own, HashMap.collect_append, List.getLast?_append, Option.or_assoc]
    refine ⟨hail ▸ hail', self ▸ self', ?_, fun checks => ?_⟩
    · rw [total', total, Nat.mod_add_mod, Nat.add_assoc]
    · have room := fits' checks
      rw [total, Nat.mod_eq_of_lt (fits checks)] at room
      omega

/-- The first loop returns if the total fits. -/
theorem addStakes_fits (build : Build) {validators : List (Id × UInt64)} {stakes : Stakes}
    (fits : stakes.totalStakingCapacity.toNat + ice.liveStake validators < 2 ^ 64) :
    ∃ stakes', ice.addStakes build validators stakes = some stakes' := by
  induction validators generalizing stakes with
  | nil => exact ⟨stakes, rfl⟩
  | cons v validators ih =>
    obtain ⟨id, amount⟩ := v
    rw [liveStake_cons] at fits
    have first : ∃ next, ice.addStake build stakes (id, amount) = some next := by
      by_cases own : id = ice.id
      · rw [if_pos (.inl own)] at fits
        rw [addStake, if_pos own, Build.add64_fits (by omega)]
        exact ⟨_, rfl⟩
      · rw [addStake, if_neg own]
        cases live : ice.reservoir.getLiveEndpoint id with
        | none => exact ⟨stakes, rfl⟩
        | some ip =>
          have counts : ice.Counts id := .inr (by rw [live]; rfl)
          rw [if_pos counts] at fits
          rw [Build.add64_fits (by omega)]
          exact ⟨_, rfl⟩
    obtain ⟨next, added⟩ := first
    obtain ⟨_, _, total, _⟩ := addStake_some added
    rw [liveStake_cons] at total
    have room : next.totalStakingCapacity.toNat + ice.liveStake validators < 2 ^ 64 := by
      have nothing : ice.liveStake [] = 0 := rfl
      rw [total, nothing, Nat.mod_eq_of_lt (by omega)]
      omega
    obtain ⟨last, rest⟩ := ih room
    exact ⟨last, by rw [addStakes, added, Option.bind_some, rest]⟩

/-- The committee that the handler returns: the last stakes, and their shares of a total. -/
structure Returned (ice : Actor) (build : Build) (msg : LiveCommittee) (committee : Committee)
    (total : UInt64) : Prop where
  totals : Totals build 0 (ice.liveStake msg.validators) total
  own : (stakesOf msg.validators ice.id).getLast? = some committee.selfStakingCapacity
  stakes : committee.hailValidators = HashMap.collect (ice.liveEntries msg.validators) ∅
  weights : ∀ id, committee.sleetValidators.lookup id =
    (committee.hailValidators.lookup id).map fun e => (e.1, percentOf e.2 total)

theorem liveCommittee_some {build : Build} {msg : LiveCommittee} {committee : Committee}
    (handled : ice.liveCommittee build msg = some committee) :
    ∃ total, Returned ice build msg committee total := by
  obtain ⟨stakes, looped, mapped⟩ := Option.bind_eq_some_iff.mp handled
  obtain ⟨capacity, mine, rfl⟩ := Option.map_eq_some_iff.mp mapped
  obtain ⟨hail, self, totals⟩ := addStakes_some looped
  refine ⟨stakes.totalStakingCapacity, totals, ?_, hail, fun id => ?_⟩
  · rw [← mine, self, Option.or_none]
  · rw [hail]
    exact HashMap.lookup_collect_map (fun e : SocketAddr × UInt64 =>
      (e.1, percentOf e.2 stakes.totalStakingCapacity)) _ id

theorem liveCommittee_returns (build : Build) {msg : LiveCommittee} {amount : UInt64}
    (listed : (ice.id, amount) ∈ msg.validators) (fits : ice.liveStake msg.validators < 2 ^ 64) :
    ∃ committee, ice.liveCommittee build msg = some committee := by
  have start : (0 : UInt64).toNat + ice.liveStake msg.validators < 2 ^ 64 := by
    rwa [UInt64.toNat_zero, Nat.zero_add]
  have loop : ∃ stakes, ice.addStakes build msg.validators ⟨∅, none, 0⟩ = some stakes :=
    addStakes_fits build start
  obtain ⟨stakes, looped⟩ := loop
  obtain ⟨_, self, _⟩ := addStakes_some looped
  have last := List.getLast?_eq_some_getLast (List.ne_nil_of_mem (mem_stakesOf.mpr listed))
  rw [last, Option.some_or] at self
  rw [liveCommittee, looped, Option.bind_some, self]
  exact ⟨_, rfl⟩

/-- The committee of the stakes: every validator with its total stake and the share of it,
which make up the whole with the share of this node. -/
structure Shares (ice : Actor) (validators : List (Id × UInt64)) (committee : Committee) :
    Prop where
  own : committee.selfStakingCapacity.toNat = stakeOf validators ice.id
  weights : ∀ id ip weight, committee.sleetValidators.lookup id = some (ip, weight) ↔
    (∃ amount, (id, amount) ∈ validators) ∧ id ≠ ice.id ∧
    ice.reservoir.getLiveEndpoint id = some ip ∧
    weight = (stakeOf validators id : ℚ) / ice.liveStake validators
  stakes : ∀ id ip stake, committee.hailValidators.lookup id = some (ip, stake) ↔
    (∃ amount, (id, amount) ∈ validators) ∧ id ≠ ice.id ∧
    ice.reservoir.getLiveEndpoint id = some ip ∧ stake.toNat = stakeOf validators id
  whole : ∑ id ∈ committee.sleetValidators.keys, weightOf committee.sleetValidators id +
    (committee.selfStakingCapacity.toNat : ℚ) / ice.liveStake validators = 1

section Returned
variable {build : Build} {msg : LiveCommittee} {committee : Committee} {total : UInt64}

/-- The stakes that are kept are the total stakes if all others are 0. -/
theorem Returned.lookup_hail (returned : Returned ice build msg committee total)
    (last : ∀ id, ice.Counts id → ∀ amount ∈ (stakesOf msg.validators id).dropLast, amount = 0)
    {id : Id} {ip : SocketAddr} {stake : UInt64} :
    committee.hailValidators.lookup id = some (ip, stake) ↔
      (∃ amount, (id, amount) ∈ msg.validators) ∧ id ≠ ice.id ∧
      ice.reservoir.getLiveEndpoint id = some ip ∧ stake.toNat = stakeOf msg.validators id := by
  rw [returned.stakes, lookup_liveEntries]
  constructor
  · rintro ⟨other, live, found⟩
    have zeros := last id (.inr (by rw [live]; rfl))
    exact ⟨⟨stake, mem_stakesOf.mp (List.mem_of_getLast? found)⟩, other, live,
      (last_eq_stakeOf found).mpr zeros⟩
  · rintro ⟨⟨amount, listed⟩, other, live, same⟩
    obtain ⟨stake', found, total⟩ := last_stake (last id (.inr (by rw [live]; rfl))) listed
    exact ⟨other, live, by rw [found, UInt64.toNat_inj.mp (same.trans total.symm)]⟩

/-- The weights are then the shares, if the total fits. -/
theorem Returned.lookup_sleet (returned : Returned ice build msg committee total)
    (last : ∀ id, ice.Counts id → ∀ amount ∈ (stakesOf msg.validators id).dropLast, amount = 0)
    (fits : ice.liveStake msg.validators < 2 ^ 64) {id : Id} {ip : SocketAddr} {weight : Weight} :
    committee.sleetValidators.lookup id = some (ip, weight) ↔
      (∃ amount, (id, amount) ∈ msg.validators) ∧ id ≠ ice.id ∧
      ice.reservoir.getLiveEndpoint id = some ip ∧
      weight = (stakeOf msg.validators id : ℚ) / ice.liveStake msg.validators := by
  have same : total.toNat = ice.liveStake msg.validators := by
    rw [returned.totals.1, UInt64.toNat_zero, Nat.zero_add, Nat.mod_eq_of_lt fits]
  rw [returned.weights, Option.map_eq_some_iff]
  constructor
  · rintro ⟨⟨ip', stake⟩, found, equal⟩
    cases equal
    obtain ⟨listed, other, live, stakes⟩ := (returned.lookup_hail last).mp found
    exact ⟨listed, other, live, by rw [percentOf, stakes, same]⟩
  · rintro ⟨⟨amount, listed⟩, other, live, rfl⟩
    obtain ⟨stake, _, stakes⟩ := last_stake (last id (.inr (by rw [live]; rfl))) listed
    exact ⟨(ip, stake), (returned.lookup_hail last).mpr ⟨⟨amount, listed⟩, other, live, stakes⟩,
      by rw [percentOf, stakes, same]⟩

theorem Returned.keys (returned : Returned ice build msg committee total) :
    committee.sleetValidators.keys = ice.livePeers msg.validators := by
  ext id
  rw [livePeers, ← HashMap.keys_collect, ← returned.stakes, Finmap.mem_keys, Finmap.mem_keys,
    ← Finmap.lookup_isSome, returned.weights, Option.isSome_map, Finmap.lookup_isSome]

/-- With one stake that counts for each validator, and a total that fits, the weights are
the shares. -/
theorem Returned.shares (returned : Returned ice build msg committee total)
    (positive : 0 < ice.liveStake msg.validators)
    (last : ∀ id, ice.Counts id → ∀ amount ∈ (stakesOf msg.validators id).dropLast, amount = 0)
    (fits : ice.liveStake msg.validators < 2 ^ 64) : Shares ice msg.validators committee := by
  have own : committee.selfStakingCapacity.toNat = stakeOf msg.validators ice.id :=
    (last_eq_stakeOf returned.own).mpr (last _ (.inl rfl))
  refine ⟨own, fun id ip weight => returned.lookup_sleet last fits,
    fun id ip stake => returned.lookup_hail last, ?_⟩
  have weights : ∀ id ∈ ice.livePeers msg.validators, weightOf committee.sleetValidators id =
      (stakeOf msg.validators id : ℚ) / ice.liveStake msg.validators := by
    intro id member
    obtain ⟨listed, other, ip, live⟩ := mem_livePeers.mp member
    rw [weightOf, (returned.lookup_sleet last fits).mpr ⟨listed, other, live, rfl⟩]
    rfl
  rw [returned.keys, Finset.sum_congr rfl weights, ← Finset.sum_div, ← Nat.cast_sum, own,
    ← add_div, ← Nat.cast_add, Nat.add_comm, ← liveStake_eq]
  exact div_self (Nat.cast_ne_zero.mpr positive.ne')

/-- If the committee is that of the stakes, then a validator has no stake but its last. -/
theorem Returned.last (returned : Returned ice build msg committee total)
    (shares : Shares ice msg.validators committee) {id : Id} (counts : ice.Counts id) :
    ∀ amount ∈ (stakesOf msg.validators id).dropLast, amount = 0 := by
  cases found : (stakesOf msg.validators id).getLast? with
  | none =>
    rw [List.getLast?_eq_none_iff.mp found]
    exact fun amount listed => absurd listed List.not_mem_nil
  | some stake =>
    refine (last_eq_stakeOf found).mp ?_
    by_cases own : id = ice.id
    · subst own
      rw [← shares.own, Option.some.inj (found.symm.trans returned.own)]
    · obtain ⟨ip, live⟩ := Option.isSome_iff_exists.mp (counts.resolve_left own)
      have entry : committee.hailValidators.lookup id = some (ip, stake) := by
        rw [returned.stakes]
        exact lookup_liveEntries.mpr ⟨own, live, found⟩
      exact ((shares.stakes id ip stake).mp entry).2.2.2

/-- If the committee is that of the stakes, then the total has not overflowed. -/
theorem Returned.fits (returned : Returned ice build msg committee total)
    (shares : Shares ice msg.validators committee) : ice.liveStake msg.validators < 2 ^ 64 := by
  by_contra beyond
  have more : 2 ^ 64 ≤ ice.liveStake msg.validators := Nat.not_lt.mp beyond
  have small := committee.selfStakingCapacity.toNat_lt
  have parts : ice.liveStake msg.validators = committee.selfStakingCapacity.toNat +
      ∑ id ∈ ice.livePeers msg.validators, stakeOf msg.validators id := by
    rw [shares.own, liveStake_eq]
  -- some peer has a stake, and its weight is the share of a total that is too small
  obtain ⟨id, member, staked⟩ := Finset.exists_ne_zero_of_sum_ne_zero
    (s := ice.livePeers msg.validators) (f := stakeOf msg.validators) (by omega)
  obtain ⟨listed, other, ip, live⟩ := mem_livePeers.mp member
  have weight := (shares.weights id ip _).mpr ⟨listed, other, live, rfl⟩
  rw [returned.weights, Option.map_eq_some_iff] at weight
  obtain ⟨⟨ip', stake⟩, found, equal⟩ := weight
  have stakes := ((shares.stakes id ip' stake).mp found).2.2.2
  have share : (stake.toNat : ℚ) / total.toNat =
      (stakeOf msg.validators id : ℚ) / ice.liveStake msg.validators :=
    congrArg Prod.snd equal
  rw [stakes] at share
  have nonzero : (stakeOf msg.validators id : ℚ) ≠ 0 := Nat.cast_ne_zero.mpr staked
  have totals : (total.toNat : ℚ) = ice.liveStake msg.validators := by
    have inverse := mul_left_cancel₀ nonzero ((div_eq_mul_inv _ _).symm.trans
      (share.trans (div_eq_mul_inv _ _)))
    exact inv_injective inverse
  have equal : total.toNat = ice.liveStake msg.validators := Nat.cast_injective totals
  have bound := total.toNat_lt
  omega

end Returned

/-- The committee is that of the stakes exactly if every validator that counts has no stake
but its last, and the total fits. -/
theorem committee_shares_iff (build : Build) (ice : Actor) (msg : LiveCommittee)
    (listed : ∃ amount, (ice.id, amount) ∈ msg.validators)
    (positive : 0 < ice.liveStake msg.validators) :
    (∃ committee, ice.liveCommittee build msg = some committee ∧
      Shares ice msg.validators committee) ↔
    (∀ id, ice.Counts id → ∀ amount ∈ (stakesOf msg.validators id).dropLast, amount = 0) ∧
      ice.liveStake msg.validators < 2 ^ 64 := by
  constructor
  · rintro ⟨committee, handled, shares⟩
    obtain ⟨total, returned⟩ := liveCommittee_some handled
    exact ⟨fun id counts => returned.last shares counts, returned.fits shares⟩
  · rintro ⟨last, fits⟩
    obtain ⟨amount, member⟩ := listed
    obtain ⟨committee, handled⟩ := liveCommittee_returns build member fits
    obtain ⟨total, returned⟩ := liveCommittee_some handled
    exact ⟨committee, handled, returned.shares positive last fits⟩

section Sample
open Alpha

/-- A cell that stakes the first output of a cell for a node. -/
def stakeFor (nodeId : Id) (spent : Cell Digest) (capacity : UInt64) : Cell Digest :=
  { pay [spent] 0 with outputs := [stakeOutput nodeId ⟨0⟩ capacity] }

/-- A node with the id 1 that holds the peer with the id 2 to be live. -/
def observer : Actor := ⟨⟨1⟩, "self", Reservoir.new.insert ⟨2⟩ "peer" .live BETA1, true⟩

/-- The peer stakes 10 and 30, of 50 in all. Its weight is that of the 30, and the weights
together with the share of the node are less than 1. -/
theorem stake_lost : ∃ steps last, Run Ledger.step (Ledger.new : Ledger Digest) steps last ∧
    (∃ amount, (observer.id, amount) ∈ last.state.validators) ∧
    observer.liveStake last.state.validators = 50 ∧ stakeOf last.state.validators ⟨2⟩ = 40 ∧
    ∀ build : Build, ∃ committee,
      observer.liveCommittee build ⟨last.state.totalStakingCapacity, last.state.validators⟩ =
        some committee ∧
      committee.sleetValidators.lookup ⟨2⟩ = some ("peer", 3 / 5) ∧
      committee.hailValidators.lookup ⟨2⟩ = some ("peer", 30) ∧
      ∑ id ∈ committee.sleetValidators.keys, weightOf committee.sleetValidators id +
        (committee.selfStakingCapacity.toNat : ℚ) / observer.liveStake last.state.validators =
          4 / 5 := by
  have found : (runBlocks [[mint 100, mint 101, mint 102],
      [stakeFor ⟨1⟩ (mint 100) 10, stakeFor ⟨2⟩ (mint 101) 10, stakeFor ⟨2⟩ (mint 102) 30]]).any
      (fun r => decide (r.2.state.totalStakingCapacity = 50 ∧
        r.2.state.validators = [(⟨1⟩, 10), (⟨2⟩, 10), (⟨2⟩, 30)])) = true := by
    decide +kernel
  have total : observer.liveStake [(⟨1⟩, 10), (⟨2⟩, 10), (⟨2⟩, 30)] = 50 := by decide +kernel
  have computed : ∀ build : Build, (observer.liveCommittee build ⟨50,
      [(⟨1⟩, 10), (⟨2⟩, 10), (⟨2⟩, 30)]⟩).any (fun committee => decide (
        committee.sleetValidators.lookup ⟨2⟩ = some ("peer", 3 / 5) ∧
        committee.hailValidators.lookup ⟨2⟩ = some ("peer", 30) ∧
        ∑ id ∈ committee.sleetValidators.keys, weightOf committee.sleetValidators id +
          (committee.selfStakingCapacity.toNat : ℚ) / (50 : ℕ) = 4 / 5)) = true := by
    rintro (_ | _) <;> decide +kernel
  obtain ⟨steps, last, run, facts⟩ := exec_any found
  obtain ⟨capacity, validators⟩ := of_decide_eq_true facts
  refine ⟨steps, last, run, ?_⟩
  rw [validators, capacity, total]
  refine ⟨⟨10, List.mem_cons_self⟩, rfl, by decide +kernel, fun build => ?_⟩
  obtain ⟨committee, handled, facts⟩ := (Option.any_eq_true _ _).mp (computed build)
  exact ⟨committee, handled, of_decide_eq_true facts⟩

/-- With a stake of 40 after an empty one the peer has its share. -/
theorem committee_shares_iff_of_two :
    ∃ committee, observer.liveCommittee .checked ⟨50, [(⟨1⟩, 10), (⟨2⟩, 0), (⟨2⟩, 40)]⟩ =
        some committee ∧
      committee.sleetValidators.lookup ⟨2⟩ = some ("peer", 4 / 5) ∧
      ∑ id ∈ committee.sleetValidators.keys, weightOf committee.sleetValidators id +
        (committee.selfStakingCapacity.toNat : ℚ) /
          observer.liveStake [(⟨1⟩, 10), (⟨2⟩, 0), (⟨2⟩, 40)] = 1 := by
  have total : observer.liveStake [(⟨1⟩, 10), (⟨2⟩, 0), (⟨2⟩, 40)] = 50 := by decide +kernel
  have last : ∀ id, observer.Counts id →
      ∀ amount ∈ (stakesOf [(⟨1⟩, 10), (⟨2⟩, 0), (⟨2⟩, 40)] id).dropLast, amount = 0 := by
    intro id _
    rw [stakesOf_cons, stakesOf_cons, stakesOf_cons]
    by_cases first : (⟨1⟩ : Id) = id
    · subst first
      exact fun amount listed => absurd listed List.not_mem_nil
    · rw [if_neg first]
      by_cases second : (⟨2⟩ : Id) = id
      · rw [if_pos second, if_pos second]
        exact fun amount => List.mem_singleton.mp
      · rw [if_neg second, if_neg second]
        exact fun amount listed => absurd listed List.not_mem_nil
  obtain ⟨committee, handled, shares⟩ :=
    (committee_shares_iff .checked observer ⟨50, [(⟨1⟩, 10), (⟨2⟩, 0), (⟨2⟩, 40)]⟩
      ⟨10, List.mem_cons_self⟩ (by rw [total]; decide)).mpr ⟨last, by rw [total]; decide⟩
  refine ⟨committee, handled, (shares.weights _ _ _).mpr
    ⟨⟨40, by simp⟩, by decide, by decide, ?_⟩, shares.whole⟩
  rw [total]
  decide +kernel

end Sample
end Actor
end Subzero.Ice
