import Subzero.Hail.Sample

/-! Every validator computes the committee from the others and from itself apart. Two
validators that start from the same stakes agree on the total, on the block producers
and on the weights, in whatever order their maps are iterated. -/
namespace Subzero.Committee
variable {H : Type} [LinearOrder H] [BlockDigest H] [Sortition H]

/-- The digest that makes a validator a block producer, if sortition draws it. -/
def producer (vrfOutput : H) (total : UInt64) (size : Nat) (e : Id × SocketAddr × UInt64) :
    Option H :=
  let vrf := BlockDigest.ofVrf e.1 vrfOutput
  if 0 < Sortition.select e.2.2 total size vrf then some vrf else none

section Entries
omit [LinearOrder H] [BlockDigest H] [Sortition H]
variable (order order' : Listing Id) {validators : HashMap Id (SocketAddr × UInt64)}

theorem mem_entries {e : Id × SocketAddr × UInt64} :
    e ∈ entries order validators ↔ validators.lookup e.1 = some e.2 := by
  unfold entries
  rw [List.mem_filterMap]
  constructor
  · rintro ⟨id, _, found⟩
    obtain ⟨v, known, rfl⟩ := Option.map_eq_some_iff.mp found
    exact known
  · intro known
    have key : e.1 ∈ order.list validators.keys :=
      (order.mem _ _).mpr (HashMap.mem_keys_of_lookup known)
    exact ⟨e.1, key, Option.map_eq_some_iff.mpr ⟨e.2, known, rfl⟩⟩

theorem entries_nodup : (entries order validators).Nodup := by
  apply List.Nodup.filterMap _ (order.nodup _)
  intro id id' e found found'
  obtain ⟨_, _, rfl⟩ := Option.map_eq_some_iff.mp found
  obtain ⟨_, _, same⟩ := Option.map_eq_some_iff.mp found'
  exact (congrArg Prod.fst same).symm

/-- A validator and the entries of the others are the entries of all. -/
theorem entries_erase {a : Id} {e : SocketAddr × UInt64} (known : validators.lookup a = some e) :
    ((a, e) :: entries order (validators.erase a)).Perm (entries order' validators) := by
  have absent : (a, e) ∉ entries order (validators.erase a) := by
    rw [mem_entries, Finmap.lookup_erase]
    simp
  apply (List.perm_ext_iff_of_nodup ((entries_nodup order).cons absent)
    (entries_nodup order')).mpr
  intro x
  rw [List.mem_cons, mem_entries, mem_entries, HashMap.lookup_erase_ite]
  by_cases same : x.1 = a
  · rw [if_pos same, same, known]
    constructor
    · rintro (rfl | impossible)
      · rfl
      · contradiction
    · intro found
      exact .inl (Prod.ext same (Option.some.inj found).symm)
  · rw [if_neg same]
    constructor
    · rintro (rfl | found)
      · exact absurd rfl same
      · exact found
    · exact .inr

/-- The total does not depend on which validator adds its own stake. -/
theorem total_erase {a : Id} {e : SocketAddr × UInt64} (known : validators.lookup a = some e)
    (c : Committee H) (own : c.validators = validators.erase a) :
    c.calculateTotalStakingCapacity order e.2 =
      (entries order' validators).foldl (fun total e => total + e.2.2) 0 := by
  have commute : ∀ (x y : Id × SocketAddr × UInt64) (total : UInt64),
      total + x.2.2 + y.2.2 = total + y.2.2 + x.2.2 := by
    intro x y total
    rw [UInt64.add_assoc, UInt64.add_comm x.2.2, ← UInt64.add_assoc]
  rw [← (entries_erase order order' known).foldl_eq' (fun x _ y _ total => commute x y total)]
  unfold calculateTotalStakingCapacity
  rw [own, List.foldl_cons, UInt64.zero_add]

end Entries

omit [BlockDigest H] [Sortition H] in
/-- A drawn digest joins the producers. -/
def elect (producers : Finset H) (drawn : Option H) : Finset H :=
  match drawn with
  | some vrf => insert vrf producers
  | none => producers

omit [BlockDigest H] [Sortition H] in
theorem mem_elect {producers : Finset H} {drawn : Option H} {v : H} :
    v ∈ elect producers drawn ↔ drawn = some v ∨ v ∈ producers := by
  cases drawn with
  | none => simp [elect]
  | some w =>
    simp only [elect, Finset.mem_insert, Option.some.injEq]
    exact or_congr_left eq_comm

/-- One validator is given its weight, and it is a producer if it is drawn. -/
def enrol (vrfOutput : H) (total : UInt64) (size : Nat)
    (acc : HashMap Id (SocketAddr × Weight) × Finset H) (e : Id × SocketAddr × UInt64) :
    HashMap Id (SocketAddr × Weight) × Finset H :=
  (acc.1.insert e.1 (e.2.1, percentOf e.2.2 total),
    elect acc.2 (producer vrfOutput total size e))

section Enrol
variable (vrfOutput : H) (total : UInt64) (size : Nat) (es : List (Id × SocketAddr × UInt64))
variable (acc : HashMap Id (SocketAddr × Weight) × Finset H)

theorem mem_producers (v : H) : v ∈ (es.foldl (enrol vrfOutput total size) acc).2 ↔
    v ∈ acc.2 ∨ ∃ e ∈ es, producer vrfOutput total size e = some v := by
  induction es generalizing acc with
  | nil => simp
  | cons e es ih =>
    rw [List.foldl_cons, ih]
    simp only [enrol, mem_elect, List.mem_cons, exists_eq_or_imp]
    constructor
    · rintro ((here | old) | later)
      · exact .inr (.inl here)
      · exact .inl old
      · exact .inr (.inr later)
    · rintro (old | here | later)
      · exact .inl (.inr old)
      · exact .inl (.inl here)
      · exact .inr later

theorem lookup_enrolled (id : Id) (found : SocketAddr × UInt64)
    (only : ∀ e ∈ es, e.1 = id → e.2 = found)
    (present : (id, found) ∈ es ∨ acc.1.lookup id = some (found.1, percentOf found.2 total)) :
    (es.foldl (enrol vrfOutput total size) acc).1.lookup id =
      some (found.1, percentOf found.2 total) := by
  induction es generalizing acc with
  | nil => exact present.resolve_left (by simp)
  | cons e es ih =>
    rw [List.foldl_cons]
    apply ih
    · exact fun e' he' => only e' (List.mem_cons_of_mem e he')
    · by_cases same : e.1 = id
      · -- the entry of `id` is enrolled now, whether or not it is enrolled again later
        have value := only e List.mem_cons_self same
        right
        subst same
        simp [enrol, value]
      · rcases present with listed | old
        · rcases List.mem_cons.mp listed with rfl | later
          · exact absurd rfl same
          · exact .inl later
        · right
          simp only [enrol]
          rw [Finmap.lookup_insert_of_ne _ (Ne.symm same), old]

end Enrol

/-- The next committee: the others are enrolled, and this node is drawn like them. -/
theorem nextCommittee_eq (order : Listing Id) (c : Committee H) (ip : SocketAddr) (vrfOutput : H)
    (validators : HashMap Id (SocketAddr × UInt64)) :
    let total := c.calculateTotalStakingCapacity order c.selfStakingCapacity
    let size := expectedSize validators.keys.card
    let enrolled := (entries order validators).foldl (enrol vrfOutput total size) (∅, ∅)
    let slot := producer vrfOutput total size (c.selfId, ip, c.selfStakingCapacity)
    c.nextCommittee order vrfOutput validators = (enrolled.1, elect enrolled.2 slot, slot) := by
  intro total size enrolled slot
  have drawn : (if 0 < Sortition.select c.selfStakingCapacity total size
      (BlockDigest.ofVrf c.selfId vrfOutput) then some (BlockDigest.ofVrf c.selfId vrfOutput)
      else none) = slot := rfl
  simp only [nextCommittee]
  rw [drawn]
  cases slot <;> rfl

/-- What a validator of a stake map computes, in terms of the whole map. -/
theorem next_spec (order order' : Listing Id) (vrfOutput : H)
    {stakes : HashMap Id (SocketAddr × UInt64)} (c : Committee H) {e : SocketAddr × UInt64}
    (known : stakes.lookup c.selfId = some e) :
    let total := (entries order' stakes).foldl (fun total e => total + e.2.2) 0
    let size := expectedSize (stakes.erase c.selfId).keys.card
    let after := c.next order e.2 vrfOutput (stakes.erase c.selfId)
    (∀ v, v ∈ after.blockProducers ↔
      ∃ e ∈ entries order' stakes, producer vrfOutput total size e = some v) ∧
    (∀ id found, id ≠ c.selfId → stakes.lookup id = some found →
      after.committee.lookup id = some (found.1, percentOf found.2 total)) ∧
    after.blockProductionSlot = producer vrfOutput total size (c.selfId, e) := by
  intro total size after
  let c' := { c with selfStakingCapacity := e.2, validators := stakes.erase c.selfId }
  have shared : c'.calculateTotalStakingCapacity order c'.selfStakingCapacity = total :=
    total_erase order order' known c' rfl
  have computed := nextCommittee_eq order c' e.1 vrfOutput (stakes.erase c.selfId)
  rw [shared] at computed
  have committee : after.committee = _ := congrArg Prod.fst computed
  have producers : after.blockProducers = _ := congrArg (fun x => x.2.1) computed
  have slot : after.blockProductionSlot = _ := congrArg (fun x => x.2.2) computed
  refine ⟨?_, ?_, slot⟩
  · intro v
    have all := entries_erase order order' known
    rw [producers]
    simp only [mem_elect, mem_producers, Finset.notMem_empty, false_or]
    constructor
    · rintro (self | ⟨x, listed, drawn⟩)
      · exact ⟨(c.selfId, e), all.mem_iff.mp List.mem_cons_self, self⟩
      · exact ⟨x, all.mem_iff.mp (List.mem_cons_of_mem _ listed), drawn⟩
    · rintro ⟨x, listed, drawn⟩
      rcases List.mem_cons.mp (all.mem_iff.mpr listed) with rfl | other
      · exact .inl drawn
      · exact .inr ⟨x, other, drawn⟩
  · intro id found other listed
    have kept : (stakes.erase c.selfId).lookup id = some found := by
      rw [HashMap.lookup_erase_ite, if_neg other, listed]
    rw [committee]
    apply lookup_enrolled
    · rintro x member rfl
      exact Option.some.inj ((mem_entries order).mp member |>.symm.trans kept)
    · exact .inl ((mem_entries order).mpr kept)

/-- Any two validators of a stake map find the same block producers, give every third
validator the same weight, and accept each other's slots. -/
theorem validators_agree_on_producers (stakes : HashMap Id (SocketAddr × UInt64)) (vrfOutput : H)
    (order order' : Listing Id) (a b : Committee H) {stakeA stakeB : SocketAddr × UInt64}
    (listedA : stakes.lookup a.selfId = some stakeA)
    (listedB : stakes.lookup b.selfId = some stakeB) :
    let a' := a.next order stakeA.2 vrfOutput (stakes.erase a.selfId)
    let b' := b.next order' stakeB.2 vrfOutput (stakes.erase b.selfId)
    a'.blockProducers = b'.blockProducers ∧
    (∀ c stake, c ≠ a.selfId → c ≠ b.selfId → stakes.lookup c = some stake →
      ∃ weight, a'.committee.lookup c = some (stake.1, weight) ∧
        b'.committee.lookup c = some (stake.1, weight)) ∧
    ∀ slot, a'.blockProductionSlot = some slot → b'.isValidVrf slot = true := by
  have sizes : (stakes.erase a.selfId).keys.card = (stakes.erase b.selfId).keys.card := by
    rw [Finmap.keys_erase, Finmap.keys_erase,
      Finset.card_erase_of_mem (HashMap.mem_keys_of_lookup listedA),
      Finset.card_erase_of_mem (HashMap.mem_keys_of_lookup listedB)]
  obtain ⟨producersA, weightsA, slotA⟩ := next_spec order order vrfOutput a listedA
  obtain ⟨producersB, weightsB, _⟩ := next_spec order' order vrfOutput b listedB
  intro a' b'
  have same : a'.blockProducers = b'.blockProducers := by
    ext v
    rw [producersA, producersB, sizes]
  refine ⟨same, ?_, ?_⟩
  · intro c stake notA notB listed
    exact ⟨_, weightsA c stake notA listed, weightsB c stake notB listed⟩
  · intro slot obtained
    have drawn := slotA.symm.trans obtained
    have own : slot ∈ a'.blockProducers :=
      (producersA slot).mpr ⟨_, (mem_entries order).mpr listedA, drawn⟩
    exact decide_eq_true (same ▸ own)

section Sample

/-- Two validators with a stake and one without. -/
def sampleStakes : HashMap Id (SocketAddr × UInt64) :=
  let stakes : List (Id × SocketAddr × UInt64) := [(⟨1⟩, "a", 30), (⟨2⟩, "b", 70), (⟨3⟩, "c", 0)]
  stakes.foldl (fun m e => m.insert e.1 e.2) ∅

theorem validators_agree_on_producers_of_three :
    let a' := (empty ⟨1⟩ : Committee Digest).next ascendingVertices.ids 30 ⟨5⟩
      (sampleStakes.erase ⟨1⟩)
    let b' := (empty ⟨2⟩ : Committee Digest).next ascendingVertices.ids 70 ⟨5⟩
      (sampleStakes.erase ⟨2⟩)
    a'.blockProducers = {BlockDigest.ofVrf ⟨1⟩ ⟨5⟩, BlockDigest.ofVrf ⟨2⟩ ⟨5⟩} ∧
    a'.blockProducers = b'.blockProducers ∧
    (∃ weight, a'.committee.lookup ⟨3⟩ = some ("c", weight) ∧
      b'.committee.lookup ⟨3⟩ = some ("c", weight)) ∧
    b'.isValidVrf (BlockDigest.ofVrf ⟨1⟩ ⟨5⟩) = true := by
  obtain ⟨producers, weights, slots⟩ := validators_agree_on_producers sampleStakes (⟨5⟩ : Digest)
    ascendingVertices.ids ascendingVertices.ids (empty ⟨1⟩) (empty ⟨2⟩)
    (by decide +kernel : sampleStakes.lookup ⟨1⟩ = some ("a", 30))
    (by decide +kernel : sampleStakes.lookup ⟨2⟩ = some ("b", 70))
  refine ⟨by decide +kernel, producers, ?_, ?_⟩
  · exact weights ⟨3⟩ ("c", 0) (by decide) (by decide) (by decide +kernel)
  · exact slots (BlockDigest.ofVrf ⟨1⟩ ⟨5⟩) (by decide +kernel)

end Sample
end Subzero.Committee
