import Subzero.Alpha.Execution

/-! The genesis block. One coinbase cell has an output for every initial staker, and every
staker stakes a part of its own. The block is built by the operations and applied to the
empty state, where its cells are put in order again. -/
namespace Subzero
open Alpha

/-- A node with its balance. -/
structure InitialStaker (H : Type) where
  keypair : Keypair H
  nodeId : Id
  totalAllocation : UInt64
  stakedAllocation : UInt64

section Build
variable {H : Type} [LinearOrder H] [Blake3 H] [KeyDigest H] [StakeCodec]

def InitialStaker.publicKeyHash (staker : InitialStaker H) : H := staker.keypair.hash

/-- The aggregated allocations. -/
def allocationsTx (stakers : List (InitialStaker H)) : Cell H :=
  CoinbaseOperation.tryInto
    ⟨stakers.map fun staker => (staker.publicKeyHash, staker.totalAllocation)⟩

/-- The loop over the stakers, which ends with the first error. -/
def stakeTxs (build : Build) (allocations : Cell H) :
    List (InitialStaker H) → Option (Except OperationError (List (Cell H)))
  | [] => some (.ok [])
  | staker :: rest =>
    match (StakeOperation.mk allocations staker.nodeId staker.publicKeyHash
        staker.stakedAllocation).stake build staker.keypair with
    | none => none
    | some (.error e) => some (.error e)
    | some (.ok cell) =>
      (stakeTxs build allocations rest).map fun result => result.map fun cells => cell :: cells

/-- The list of stakers is a parameter, as is the VRF output of genesis. -/
def buildGenesis (build : Build) (vrfOut : H) (stakers : List (InitialStaker H)) :
    Option (Except OperationError (Block H)) :=
  (stakeTxs build (allocationsTx stakers) stakers).map fun result =>
    result.map fun cells => ⟨none, 0, vrfOut, cells ++ [allocationsTx stakers]⟩

end Build

section Sums
variable {H : Type}

theorem sumOf_perm {type : CellType} {outputs outputs' : List (Output H)}
    (same : outputs.Perm outputs') : sumOf type outputs = sumOf type outputs' :=
  ((same.filter _).map _).sum_eq

/-- A sum that fits is exact. -/
theorem sum_map_toNat {α : Type} {l : List α} {f : α → UInt64}
    (bounded : (l.map fun a => (f a).toNat).sum < 2 ^ 64) :
    (l.map f).sum.toNat = (l.map fun a => (f a).toNat).sum := by
  rw [← Multiset.sum_coe, sum_toNat, Multiset.map_coe, List.map_map, Multiset.sum_coe]
  exact Nat.mod_eq_of_lt bounded

end Sums

section Coinbase
variable {H : Type} [LinearOrder H] [Blake3 H] [KeyDigest H] {stakers : List (InitialStaker H)}

omit [Blake3 H] in
theorem allocationsTx_outputs (stakers : List (InitialStaker H)) :
    (allocationsTx stakers).outputs.Perm
      (stakers.map fun s => coinbaseOutput s.publicKeyHash s.totalAllocation) := by
  have sorted := List.perm_insertionSort (fun a b : Output H => (compare a b).isLE)
    (stakers.map fun s => coinbaseOutput s.publicKeyHash s.totalAllocation)
  rw [allocationsTx, CoinbaseOperation.tryInto, List.map_map]
  exact sorted

omit [Blake3 H] in
theorem allocationsTx_coinbase : ∀ o ∈ (allocationsTx stakers).outputs, o.cellType = .coinbase := by
  intro o listed
  obtain ⟨s, _, rfl⟩ := List.mem_map.mp ((allocationsTx_outputs stakers).mem_iff.mp listed)
  rfl

omit [Blake3 H] in
/-- A key that no other staker has owns one output. -/
theorem allocationsTx_owned (keys : (stakers.map InitialStaker.publicKeyHash).Nodup)
    {s : InitialStaker H} (member : s ∈ stakers) :
    (allocationsTx stakers).outputsOfOwner s.publicKeyHash =
      [coinbaseOutput s.publicKeyHash s.totalAllocation] := by
  have sorted := (allocationsTx_outputs stakers).filter fun o => o.lock = s.publicKeyHash
  obtain ⟨pre, post, rfl⟩ := List.append_of_mem member
  have others : ∀ t ∈ pre ++ post, t.publicKeyHash ≠ s.publicKeyHash := by
    rw [List.map_append, List.map_cons, List.nodup_append] at keys
    obtain ⟨_, later, apart⟩ := keys
    intro t listed same
    rcases List.mem_append.mp listed with before | after
    · exact apart _ (List.mem_map_of_mem before) _ List.mem_cons_self same
    · exact (List.nodup_cons.mp later).1 (same ▸ List.mem_map_of_mem after)
  have single : ((pre ++ s :: post).map fun t => coinbaseOutput t.publicKeyHash
      t.totalAllocation).filter (fun o => o.lock = s.publicKeyHash) =
      [coinbaseOutput s.publicKeyHash s.totalAllocation] := by
    have none : ∀ l : List (InitialStaker H), (∀ t ∈ l, t.publicKeyHash ≠ s.publicKeyHash) →
        (l.map fun t => coinbaseOutput t.publicKeyHash t.totalAllocation).filter
          (fun o => o.lock = s.publicKeyHash) = [] := by
      intro l apart
      rw [List.filter_eq_nil_iff]
      intro o listed
      obtain ⟨t, inside, rfl⟩ := List.mem_map.mp listed
      exact fun locked => apart t inside (of_decide_eq_true locked)
    rw [List.map_append, List.map_cons, List.filter_append, List.filter_cons,
      none pre fun t listed => others t (List.mem_append_left _ listed),
      none post fun t listed => others t (List.mem_append_right _ listed)]
    simp [coinbaseOutput]
  rw [single] at sorted
  exact List.perm_singleton.mp sorted

end Coinbase

section Stakes
variable {H : Type} [LinearOrder H] [Blake3 H] [KeyDigest H] [StakeCodec] {build : Build}

omit [Blake3 H] [KeyDigest H] [StakeCodec] in
theorem payOut_perm (mainOutput : UInt64 → Output H) (changeAddress : H) (r : ConsumeResult H) :
    (payOut mainOutput changeAddress r).outputs.Perm (mainOutput r.consumed ::
      if FEE < r.residue then [transferOutput changeAddress (r.residue - FEE)] else []) := by
  have more : (FEE < r.residue ∧ 0 < r.residue - FEE) ↔ FEE < r.residue := by
    refine and_iff_left_of_imp fun exceeds => ?_
    rw [UInt64.lt_iff_toNat_lt] at exceeds
    rw [UInt64.lt_iff_toNat_lt, UInt64.toNat_sub_of_le _ _ (UInt64.le_iff_toNat_le.mpr exceeds.le)]
    rw [UInt64.toNat_zero]
    omega
  refine (List.perm_insertionSort _ _).trans ?_
  simp only [more]
  split <;> exact .refl _

/-- The cell of a staker: all of its allocation is spent, for the stake, the change and the
fee. -/
structure Staked (allocations : Cell H) (staker : InitialStaker H) (cell : Cell H) : Prop where
  pays : Pays allocations cell
  owned : ∀ i ∈ cell.inputs, ∃ o, i.output allocations = some o ∧ o.lock = staker.publicKeyHash
  spent : allocations.spentFrom cell = staker.totalAllocation.toNat
  staking : sumOf .stake cell.outputs = staker.stakedAllocation
  change : sumOf .transfer cell.outputs = staker.totalAllocation - staker.stakedAllocation - FEE
  validators : cell.outputs.filterMap validatorOf = [(staker.nodeId, staker.stakedAllocation)]

/-- What a staker needs to stake: an amount, and the fee on top of it. -/
def Funded (staker : InitialStaker H) : Prop :=
  0 < staker.stakedAllocation.toNat ∧
    staker.stakedAllocation.toNat + FEE.toNat ≤ staker.totalAllocation.toNat

variable {stakers : List (InitialStaker H)}
  (decodes : ∀ id : Id, StakeCodec.nodeId (Encoding.hashBytes id.bytes) = .ok id)
  (few : stakers.length ≤ 255) (keys : (stakers.map InitialStaker.publicKeyHash).Nodup)

omit [Blake3 H] [StakeCodec] in
include few in
theorem allocationsTx_few : (allocationsTx stakers).outputs.length ≤ 255 := by
  rw [(allocationsTx_outputs stakers).length_eq, List.length_map]
  exact few

include keys

omit [Blake3 H] [StakeCodec] in
theorem allocationsTx_total {staker : InitialStaker H} (member : staker ∈ stakers) :
    exactOf ((allocationsTx stakers).outputsOfOwner staker.keypair.hash) =
      staker.totalAllocation.toNat := by
  have owned : (allocationsTx stakers).outputsOfOwner staker.keypair.hash = _ :=
    allocationsTx_owned keys member
  rw [owned]
  exact Nat.add_zero _

include few

/-- A staker with funds consumes its output, and leaves the residue. -/
theorem allocationsTx_consumed {staker : InitialStaker H} (member : staker ∈ stakers)
    (funded : Funded staker) :
    ∃ r, consumeFromCell build (allocationsTx stakers) staker.stakedAllocation staker.keypair =
        some (.ok r) ∧ r.residue = staker.totalAllocation - staker.stakedAllocation ∧
      Conserves (allocationsTx stakers) staker.keypair staker.stakedAllocation r := by
  obtain ⟨positive, enough⟩ := funded
  have size := allocationsTx_few few
  have total := allocationsTx_total keys member
  have bounded := total ▸ staker.totalAllocation.toNat_lt
  have loop : ownedOutputs build staker.keypair.hash (allocationsTx stakers).outputs 0 =
      some (.ok (ownedAt staker.keypair.hash (allocationsTx stakers).outputs 0)) := by
    refine ownedOutputs_decoded (n := 0) (fun o listed => ?_) (by omega)
    simp only [validateOutput, allocationsTx_coinbase o listed]
  have some_amount : staker.stakedAllocation ≠ 0 := by
    intro zero
    rw [zero] at positive
    exact absurd positive (Nat.lt_irrefl 0)
  have returned : ∃ r, consumeFromCell build (allocationsTx stakers) staker.stakedAllocation
      staker.keypair = some (.ok r) := by
    rw [consumeFromCell_eq bounded loop, if_neg some_amount, if_neg (by omega)]
    exact ⟨_, rfl⟩
  obtain ⟨r, returned⟩ := returned
  refine ⟨r, returned, ?_, consumeFromCell_conserves size bounded returned⟩
  obtain ⟨_, k, covers, _⟩ := consumeFromCell_covers bounded returned
  have reached := covers.reached
  have whole : exactOf (((allocationsTx stakers).outputsOfOwner staker.keypair.hash).take k) =
      staker.totalAllocation.toNat := by
    cases k with
    | zero =>
      rw [List.take_zero] at reached
      change 0 = _ at reached
      omega
    | succ k =>
      have owned : (allocationsTx stakers).outputsOfOwner staker.keypair.hash = _ :=
        allocationsTx_owned keys member
      rw [List.take_of_length_le (by simp [owned]), total]
  apply UInt64.toNat_inj.mp
  rw [UInt64.toNat_sub_of_le _ _ (UInt64.le_iff_toNat_le.mpr (by omega))]
  omega

include decodes

theorem stake_staked {staker : InitialStaker H} (member : staker ∈ stakers)
    (funded : Funded staker) :
    ∃ cell, (StakeOperation.mk (allocationsTx stakers) staker.nodeId staker.publicKeyHash
        staker.stakedAllocation).stake build staker.keypair = some (.ok cell) ∧
      Staked (allocationsTx stakers) staker cell := by
  have consumes : ∃ r, consumeFromCell build (allocationsTx stakers) staker.stakedAllocation
      staker.keypair = some (.ok r) ∧ _ := allocationsTx_consumed few keys member funded
  obtain ⟨r, returned, residue, conserves⟩ := consumes
  have made : (StakeOperation.mk (allocationsTx stakers) staker.nodeId staker.publicKeyHash
      staker.stakedAllocation).stake build staker.keypair = some (.ok (payOut
        (stakeOutput staker.nodeId staker.publicKeyHash) staker.publicKeyHash r)) := by
    rw [StakeOperation.stake, returned]
    rfl
  have outputs := payOut_perm (stakeOutput staker.nodeId staker.publicKeyHash)
    staker.publicKeyHash r
  rw [conserves.consumed] at outputs
  have covered := funded.2
  have left : r.residue.toNat = staker.totalAllocation.toNat - staker.stakedAllocation.toNat := by
    rw [residue, UInt64.toNat_sub_of_le _ _ (UInt64.le_iff_toNat_le.mpr (by omega))]
  have total := allocationsTx_total keys member
  refine ⟨_, made, ?_⟩
  constructor
  · exact (Made.stake made).pays (allocationsTx_few few)
      (total ▸ staker.totalAllocation.toNat_lt) decodes
  · exact fun i listed => conserves.owned i (List.mem_toFinset.mp listed)
  · rw [payOut_spent _ conserves.distinct, conserves.total, conserves.consumed, left]
    omega
  · rw [sumOf_perm outputs]
    split <;> simp [sumOf, stakeOutput, transferOutput]
  · rw [← residue, sumOf_perm outputs]
    split
    · simp [sumOf, stakeOutput, transferOutput]
    · -- nothing is left over the fee
      rename_i little
      have even : r.residue = FEE := by
        rw [UInt64.lt_iff_toNat_lt] at little
        apply UInt64.toNat_inj.mp
        omega
      rw [even]
      simp [sumOf, stakeOutput]
  · refine List.perm_singleton.mp ((outputs.filterMap validatorOf).trans ?_)
    split <;> simp [validatorOf, stakeOutput, transferOutput, decodes]

/-- The loop over the stakers makes a cell for each of them. -/
theorem stakeTxs_staked {some_stakers : List (InitialStaker H)}
    (inside : ∀ staker ∈ some_stakers, staker ∈ stakers)
    (funded : ∀ staker ∈ some_stakers, Funded staker) :
    ∃ cells, stakeTxs build (allocationsTx stakers) some_stakers = some (.ok cells) ∧
      List.Forall₂ (Staked (allocationsTx stakers)) some_stakers cells := by
  induction some_stakers with
  | nil => exact ⟨[], rfl, .nil⟩
  | cons staker rest ih =>
    obtain ⟨here, later⟩ := List.forall_mem_cons.mp inside
    obtain ⟨amount, others⟩ := List.forall_mem_cons.mp funded
    obtain ⟨cells, built, made⟩ := ih later others
    have one : ∃ cell, (StakeOperation.mk (allocationsTx stakers) staker.nodeId
        staker.publicKeyHash staker.stakedAllocation).stake build staker.keypair =
          some (.ok cell) ∧ _ := stake_staked decodes few keys here amount
    obtain ⟨cell, returned, staked⟩ := one
    refine ⟨cell :: cells, ?_, .cons staked made⟩
    rw [stakeTxs, returned]
    simp only [built]
    rfl

end Stakes

section Lists
variable {α β γ : Type}

theorem forall₂_map_eq {R : α → β → Prop} {f : α → γ} {g : β → γ} {l : List α} {l' : List β}
    (related : List.Forall₂ R l l') (same : ∀ a b, R a b → f a = g b) : l.map f = l'.map g := by
  rw [← List.forall₂_eq_eq_eq, List.forall₂_map_left_iff, List.forall₂_map_right_iff]
  exact related.imp same

theorem forall₂_exists_left {R : α → β → Prop} {l : List α} {l' : List β}
    (related : List.Forall₂ R l l') {b : β} (member : b ∈ l') : ∃ a ∈ l, R a b := by
  induction related with
  | nil => cases member
  | cons first _ ih =>
    rcases List.mem_cons.mp member with rfl | later
    · exact ⟨_, List.mem_cons_self, first⟩
    · obtain ⟨a, listed, holds⟩ := ih later
      exact ⟨a, List.mem_cons_of_mem _ listed, holds⟩

end Lists

section Cells
variable {H : Type} [LinearOrder H] [Blake3 H] [KeyDigest H] [StakeCodec]
variable {stakers : List (InitialStaker H)} {cells : List (Cell H)}

/-- The inputs tell whose cell it is. -/
theorem Staked.owner {allocations cell : Cell H} {staker staker' : InitialStaker H}
    (staked : Staked allocations staker cell) (staked' : Staked allocations staker' cell) :
    staker.publicKeyHash = staker'.publicKeyHash := by
  obtain ⟨_, consumes⟩ := staked.pays.consumes
  obtain ⟨i, input, _⟩ := Finset.mem_image.mp consumes
  obtain ⟨o, named, lock⟩ := staked.owned i input
  obtain ⟨o', named', lock'⟩ := staked'.owned i input
  cases Option.some.inj (named.symm.trans named')
  exact lock.symm.trans lock'

theorem staked_nodup {allocations : Cell H} (keys : (stakers.map InitialStaker.publicKeyHash).Nodup)
    (made : List.Forall₂ (Staked allocations) stakers cells) : cells.Nodup := by
  induction made with
  | nil => exact List.nodup_nil
  | @cons staker cell _ _ staked rest ih =>
    rw [List.map_cons, List.nodup_cons] at keys
    refine List.nodup_cons.mpr ⟨fun again => keys.1 ?_, ih keys.2⟩
    obtain ⟨staker', listed, staked'⟩ := forall₂_exists_left rest again
    exact staked.owner staked' ▸ List.mem_map_of_mem listed

/-- A staker's cell has inputs, and the coinbase cell has none. -/
theorem genesis_nodup (keys : (stakers.map InitialStaker.publicKeyHash).Nodup)
    (made : List.Forall₂ (Staked (allocationsTx stakers)) stakers cells) :
    (cells ++ [allocationsTx stakers]).Nodup := by
  refine List.nodup_append.mpr ⟨staked_nodup keys made, List.nodup_singleton _, ?_⟩
  rintro cell listed _ single rfl
  obtain rfl := List.mem_singleton.mp single
  obtain ⟨staker, _, staked⟩ := forall₂_exists_left made listed
  obtain ⟨_, consumes⟩ := staked.pays.consumes
  obtain ⟨i, input, _⟩ := Finset.mem_image.mp consumes
  exact absurd input (Finset.notMem_empty i)

/-- What is asked of the stakers: there are some, with a key of their own and enough funds, and
their balances add up. -/
structure Stakeable (stakers : List (InitialStaker H)) : Prop where
  present : stakers ≠ []
  few : stakers.length ≤ 255
  keys : (stakers.map InitialStaker.publicKeyHash).Nodup
  funded : ∀ staker ∈ stakers, Funded staker
  bounded : (stakers.map fun staker => staker.totalAllocation.toNat).sum < 2 ^ 64

omit [Blake3 H] [StakeCodec] in
theorem allocationsTx_minted (stakers : List (InitialStaker H)) :
    sumOf .coinbase (allocationsTx stakers).outputs =
      (stakers.map InitialStaker.totalAllocation).sum := by
  rw [sumOf_perm (allocationsTx_outputs stakers)]
  simp [sumOf, coinbaseOutput, List.filter_map, Function.comp_def]

omit [LinearOrder H] [Blake3 H] [KeyDigest H] [StakeCodec] in
theorem Funded.positive {staker : InitialStaker H} (funded : Funded staker) :
    0 < staker.totalAllocation.toNat := by
  have fee : 0 < FEE.toNat := by decide
  have := funded.2
  omega

omit [Blake3 H] [StakeCodec] in
theorem Stakeable.minted (stakeable : Stakeable stakers) :
    0 < sumOf .coinbase (allocationsTx stakers).outputs := by
  obtain ⟨staker, rest, rfl⟩ := List.exists_cons_of_ne_nil stakeable.present
  have positive := (stakeable.funded staker List.mem_cons_self).positive
  rw [UInt64.lt_iff_toNat_lt, allocationsTx_minted, sum_map_toNat stakeable.bounded, List.map_cons,
    List.sum_cons, UInt64.toNat_zero]
  omega

/-- Every cell of the block has outputs. -/
theorem genesis_filled (stakeable : Stakeable stakers)
    (made : List.Forall₂ (Staked (allocationsTx stakers)) stakers cells) :
    ∀ c ∈ cells ++ [allocationsTx stakers], c.outputs ≠ [] := by
  intro c listed
  rcases List.mem_append.mp listed with stake | single
  · obtain ⟨staker, _, staked⟩ := forall₂_exists_left made stake
    exact staked.pays.pays
  · obtain rfl := List.mem_singleton.mp single
    intro none
    have minted := stakeable.minted
    rw [none] at minted
    exact absurd minted (UInt64.lt_irrefl 0)

omit [StakeCodec] in
theorem allocationsTx_consumes_nothing (stakers : List (InitialStaker H)) :
    (allocationsTx stakers).consumed = ∅ := rfl

/-- The coinbase cell mints and does nothing else. -/
theorem Stakeable.accepts_allocations (stakeable : Stakeable stakers) (live : Entries H) :
    Accepts (taken (allocationsTx stakers).consumed live) (allocationsTx stakers) := by
  have none : taken (allocationsTx stakers).consumed live = 0 := by
    refine Multiset.eq_zero_iff_forall_notMem.mpr fun x found => ?_
    exact absurd (mem_taken.mp found).1 (Finset.notMem_empty x.1)
  have other : ∀ type, type ≠ .coinbase → sumOf type (allocationsTx stakers).outputs = 0 := by
    refine fun type other => sumOf_none fun o listed same => other ?_
    rw [← same, allocationsTx_coinbase o listed]
  rw [none]
  refine ⟨fun id consumes => absurd consumes (Finset.notMem_empty id), ?_, ?_, .inr ?_⟩
  · exact fun _ _ _ x found => absurd found (Multiset.notMem_zero x)
  · intro o listed stake
    rw [allocationsTx_coinbase o listed] at stake
    cases stake
  · exact ⟨stakeable.minted, other _ (by decide), other _ (by decide)⟩

section Ids
variable (injective : Function.Injective (Cell.hash : Cell H → H))
  (ids : ∀ (h h' : H) i j, CellId.fromOutput h i = CellId.fromOutput h' j → h = h')
  (own : ∀ h : H, Function.Injective (CellId.fromOutput h))
include injective ids

omit [KeyDigest H] [StakeCodec] in
theorem produced_nodup (nodup : cells.Nodup) (filled : ∀ c ∈ cells, c.outputs ≠ []) :
    (cells.map Cell.produced).Nodup := by
  refine nodup.map_on fun c first d _ same => by_contra fun other => ?_
  have disjoint := Cell.produced_disjoint injective ids other
  rw [same, disjoint_self] at disjoint
  exact filled c first (Cell.produced_eq_empty.mp (same.trans disjoint))

include own

/-- The cells of the genesis block pass the checks that do not depend on their order. -/
theorem genesis_acceptable (stakeable : Stakeable stakers)
    (made : List.Forall₂ (Staked (allocationsTx stakers)) stakers cells) :
    Acceptable [] (cells ++ [allocationsTx stakers]) := by
  have nodup := genesis_nodup stakeable.keys made
  have filled := genesis_filled stakeable made
  have member : allocationsTx stakers ∈ cells ++ [allocationsTx stakers] := by simp
  have all : (cells ++ [allocationsTx stakers]).filter (fun d => d.outputs ≠ []) =
      cells ++ [allocationsTx stakers] :=
    List.filter_eq_self.mpr fun c listed => decide_eq_true (filled c listed)
  refine ⟨produced_nodup injective ids nodup filled, ?_, ?_, ?_⟩
  · intro c listed
    rw [List.nil_append]
    rcases List.mem_append.mp listed with stake | single
    · obtain ⟨staker, _, staked⟩ := forall₂_exists_left made stake
      refine (staked.pays.accepts_iff injective ids own nodup member).mpr ?_
      intro o output other i input spent named
      obtain ⟨_, found⟩ := Input.output_some.mp named
      rw [allocationsTx_coinbase spent (List.mem_of_getElem? found)]
      exact (staked.pays.plain o output).symm
    · obtain rfl := List.mem_singleton.mp single
      exact stakeable.accepts_allocations _
  · exact fun _ _ d old => absurd old List.not_mem_nil
  · intro c listed
    rw [List.nil_append, all]
    rcases List.mem_append.mp listed with stake | single
    · obtain ⟨staker, _, staked⟩ := forall₂_exists_left made stake
      exact (staked.pays.writable_iff injective ids member).mpr fun _ => filled
    · obtain rfl := List.mem_singleton.mp single
      intro e _ e' _ same
      rwa [allocationsTx_consumes_nothing, Finset.sdiff_empty, Finset.sdiff_empty] at same

/-- A cell of a staker takes the allocation of that staker. -/
theorem Staked.spent_eq {staker : InitialStaker H} {cell : Cell H}
    (staked : Staked (allocationsTx stakers) staker cell) (nodup : cells.Nodup)
    (member : allocationsTx stakers ∈ cells) :
    Alpha.spent (entriesOf cells) cell = staker.totalAllocation := by
  have pays := staked.pays
  have found := pays.toSpends.exactTaken_eq injective ids own nodup member pays.few
  rw [Alpha.spent, if_pos (sumOf_none pays.plain)]
  apply UInt64.toNat_inj.mp
  rw [capacityOf_toNat, found, Nat.mod_eq_of_lt pays.bounded, staked.spent]

omit injective ids own in
omit [KeyDigest H] [StakeCodec] in
/-- What a cell takes from the total does not depend on its turn. -/
theorem spent_along {ordered : List (Cell H)} (order : DependencyGraph.Ordered cells ordered)
    (live : Entries H) :
    Along (fun at_turn c => Alpha.spent at_turn c = Alpha.spent (entriesOf ordered + live) c) live
      ordered := by
  rw [along_iff]
  intro pre c post split
  rw [Alpha.spent, Alpha.spent, taken_turn order split]

/-- What the cells of the stakers and the coinbase cell add to the spendable total. -/
theorem genesis_spending (stakeable : Stakeable stakers)
    (made : List.Forall₂ (Staked (allocationsTx stakers)) stakers cells) :
    ((cells ++ [allocationsTx stakers]).map fun c =>
      sumOf .transfer c.outputs + sumOf .coinbase c.outputs -
        Alpha.spent (entriesOf (cells ++ [allocationsTx stakers])) c).sum =
      (stakers.map fun s => s.totalAllocation - s.stakedAllocation - FEE).sum := by
  have nodup := genesis_nodup stakeable.keys made
  have member : allocationsTx stakers ∈ cells ++ [allocationsTx stakers] := by simp
  have stakes : (stakers.map fun s => s.totalAllocation - s.stakedAllocation - FEE -
      s.totalAllocation) = cells.map fun c => sumOf .transfer c.outputs +
        sumOf .coinbase c.outputs -
          Alpha.spent (entriesOf (cells ++ [allocationsTx stakers])) c := by
    refine forall₂_map_eq made fun staker cell staked => ?_
    rw [staked.spent_eq injective ids own nodup member, staked.change,
      sumOf_none staked.pays.plain, add_zero]
  have coinbase : sumOf .transfer (allocationsTx stakers).outputs = 0 := by
    refine sumOf_none fun o listed => ?_
    rw [allocationsTx_coinbase o listed]
    decide
  have nothing : Alpha.spent (entriesOf (cells ++ [allocationsTx stakers]))
      (allocationsTx stakers) = 0 :=
    if_neg (UInt64.pos_iff_ne_zero.mp stakeable.minted)
  rw [List.map_append, List.sum_append, ← stakes, List.map_singleton, List.sum_singleton, coinbase,
    nothing, allocationsTx_minted, zero_add, sub_zero]
  clear * -
  induction stakers with
  | nil => rfl
  | cons s stakers ih =>
    simp only [List.map_cons, List.sum_cons]
    rw [← ih]
    abel

end Ids

theorem genesis_staking (made : List.Forall₂ (Staked (allocationsTx stakers)) stakers cells) :
    ((cells ++ [allocationsTx stakers]).map fun c => sumOf .stake c.outputs).sum =
      (stakers.map InitialStaker.stakedAllocation).sum := by
  have stakes : stakers.map InitialStaker.stakedAllocation =
      cells.map fun c => sumOf .stake c.outputs :=
    forall₂_map_eq made fun _ _ staked => staked.staking.symm
  have none : sumOf .stake (allocationsTx stakers).outputs = 0 := by
    refine sumOf_none fun o listed => ?_
    rw [allocationsTx_coinbase o listed]
    decide
  rw [List.map_append, List.sum_append, stakes, List.map_singleton, List.sum_singleton, none,
    add_zero]

theorem genesis_validators (made : List.Forall₂ (Staked (allocationsTx stakers)) stakers cells) :
    ((cells ++ [allocationsTx stakers]).flatMap fun c => c.outputs.filterMap validatorOf) =
      stakers.map fun s => (s.nodeId, s.stakedAllocation) := by
  have stakes : (stakers.map fun s => [(s.nodeId, s.stakedAllocation)]) =
      cells.map fun c => c.outputs.filterMap validatorOf :=
    forall₂_map_eq made fun _ _ staked => staked.validators.symm
  have none : (allocationsTx stakers).outputs.filterMap validatorOf = [] := by
    refine List.filterMap_eq_nil_iff.mpr fun o listed => ?_
    simp only [validatorOf, allocationsTx_coinbase o listed]
  rw [List.flatMap_append, List.flatMap_singleton, none, List.append_nil, List.flatMap_def,
    ← stakes]
  clear * -
  induction stakers with
  | nil => rfl
  | cons s stakers ih => simp [ih]

/-- The state of a chain that starts with some stakers: they are the validators, and what they
neither stake nor pay for it can be spent. -/
structure Founded (stakers : List (InitialStaker H)) (block : Block H) (s : State H) : Prop where
  height : s.height = 0
  validators : s.validators.Perm (stakers.map fun s => (s.nodeId, s.stakedAllocation))
  staking : s.totalStakingCapacity.toNat =
    (stakers.map fun s => s.stakedAllocation.toNat).sum
  spending : s.totalSpendingCapacity.toNat = (stakers.map fun s =>
    s.totalAllocation.toNat - s.stakedAllocation.toNat - FEE.toNat).sum
  live : s.liveCells.entries = entriesOf block.cells

omit [LinearOrder H] [Blake3 H] [StakeCodec] in
theorem Stakeable.sums (stakeable : Stakeable stakers) :
    (stakers.map InitialStaker.stakedAllocation).sum.toNat =
        (stakers.map fun s => s.stakedAllocation.toNat).sum ∧
      (stakers.map fun s => s.totalAllocation - s.stakedAllocation - FEE).sum.toNat =
        (stakers.map fun s =>
          s.totalAllocation.toNat - s.stakedAllocation.toNat - FEE.toNat).sum := by
  have change : ∀ s ∈ stakers, (s.totalAllocation - s.stakedAllocation - FEE).toNat =
      s.totalAllocation.toNat - s.stakedAllocation.toNat - FEE.toNat := by
    intro s listed
    have covered := (stakeable.funded s listed).2
    have first := UInt64.toNat_sub_of_le s.totalAllocation s.stakedAllocation
      (UInt64.le_iff_toNat_le.mpr (by omega))
    rw [UInt64.toNat_sub_of_le _ _ (UInt64.le_iff_toNat_le.mpr (by omega)), first]
  have smaller : ∀ f : InitialStaker H → Nat, (∀ s ∈ stakers, f s ≤ s.totalAllocation.toNat) →
      (stakers.map f).sum < 2 ^ 64 := fun f less =>
    (List.sum_le_sum less).trans_lt stakeable.bounded
  constructor
  · refine sum_map_toNat (smaller _ fun s listed => ?_)
    have covered := (stakeable.funded s listed).2
    omega
  · rw [sum_map_toNat (smaller _ fun s listed => ?_), List.map_congr_left change]
    rw [change s listed]
    omega

/-- The genesis block of stakers with funds is built, and it is applied to the empty state in
whatever order its cells are put. -/
theorem genesis_applies (injective : Function.Injective (Cell.hash : Cell H → H))
    (ids : ∀ (h h' : H) i j, CellId.fromOutput h i = CellId.fromOutput h' j → h = h')
    (own : ∀ h : H, Function.Injective (CellId.fromOutput h)) (ranked : Ranked H)
    (decodes : ∀ id : Id, StakeCodec.nodeId (Encoding.hashBytes id.bytes) = .ok id)
    (stakeable : Stakeable stakers) (build : Build) (vrfOut : H) :
    ∃ block, buildGenesis build vrfOut stakers = some (.ok block) ∧ block.predecessor = none ∧
      block.height = 0 ∧ ∀ order : BlockOrder H, ∃ s, State.new.apply order block = .ok s ∧
        Founded stakers block s := by
  have built : ∃ cells, stakeTxs build (allocationsTx stakers) stakers = some (.ok cells) ∧ _ :=
    stakeTxs_staked decodes stakeable.few stakeable.keys (fun _ listed => listed) stakeable.funded
  obtain ⟨cells, built, made⟩ := built
  refine ⟨⟨none, 0, vrfOut, cells ++ [allocationsTx stakers]⟩, ?_, rfl, rfl, fun order => ?_⟩
  · rw [buildGenesis, built]
    rfl
  let block : Block H := ⟨none, 0, vrfOut, cells ++ [allocationsTx stakers]⟩
  have acceptable := genesis_acceptable injective ids own stakeable made
  have sheltered : Sheltered ([] : List (Cell H)) block.cells := fun z listed none =>
    absurd none (genesis_filled stakeable made z listed)
  have recorded : (Ledger.new : Ledger H).Recorded := ⟨rfl, rfl⟩
  obtain ⟨ordered, sorted, along, applied⟩ :=
    recorded.applies injective ids ranked order block acceptable sheltered
  have all : ordered.Perm block.cells := sorted.ranked ranked ids acceptable.distinct
  have pool : entriesOf ordered = entriesOf block.cells := entriesOf_perm all
  obtain ⟨staked, left⟩ := stakeable.sums
  refine ⟨_, applied, ?_⟩
  constructor
  · exact State.height_foldl _ _
  · rw [validators_foldl]
    exact (all.flatMap_right _).trans (.of_eq (genesis_validators made))
  · rw [staking_foldl, (all.map _).sum_eq, genesis_staking made]
    exact (congrArg UInt64.toNat (zero_add _)).trans staked
  · have live : entriesOf ordered + (Ledger.new : Ledger H).state.liveCells.entries =
        entriesOf block.cells := by
      rw [pool]
      exact add_zero _
    rw [spending_foldl along (spent_along sorted _), (all.map _).sum_eq, live,
      genesis_spending injective ids own stakeable made]
    exact (congrArg UInt64.toNat (zero_add _)).trans left
  · rw [State.entries_foldl along, pool]
    exact add_zero _

end Cells

section Sample

/-- A staker with 2000 in all, half of it staked. -/
def sampleStaker (n : UInt8) : InitialStaker Digest :=
  ⟨signer n, ⟨BitVec.ofNat 256 n.toNat⟩, 2000, 1000⟩

/-- Six stakers, as there are in the source. -/
def sampleStakers : List (InitialStaker Digest) := [1, 2, 3, 4, 5, 6].map sampleStaker

theorem stakeable_sample : Stakeable sampleStakers where
  present := by decide
  few := by decide
  keys := by decide +kernel
  funded := by
    intro staker listed
    obtain ⟨n, _, rfl⟩ := List.mem_map.mp listed
    change 0 < (1000 : UInt64).toNat ∧ (1000 : UInt64).toNat + FEE.toNat ≤ (2000 : UInt64).toNat
    decide
  bounded := by decide

/-- The six stakers have 6000 staked and 5982 to spend. -/
theorem genesis_applies_six :
    ∃ block, buildGenesis .checked ⟨0⟩ sampleStakers = some (.ok block) ∧
      ∀ order : BlockOrder Digest, ∃ s, State.new.apply order block = .ok s ∧
        s.totalStakingCapacity.toNat = 6000 ∧ s.totalSpendingCapacity.toNat = 5982 := by
  obtain ⟨block, built, _, _, applies⟩ := genesis_applies hash_injective fromOutput_hash
    fromOutput_injective ranked_digest nodeId_hashBytes stakeable_sample .checked ⟨0⟩
  refine ⟨block, built, fun order => ?_⟩
  obtain ⟨s, applied, founded⟩ := applies order
  exact ⟨s, applied, founded.staking, founded.spending⟩

end Sample
end Subzero
