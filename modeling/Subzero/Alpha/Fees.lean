import Subzero.Alpha.Minting
import Subzero.Alpha.Operation

/-! What an operation takes from a cell and what it pays out. The outputs that it spends
are the shortest prefix of the owned ones that reaches the amount, whatever the fee. -/
namespace Subzero
open Alpha (exactOf)

section Owned
variable {H : Type} [DecidableEq H]

/-- All outputs of an owner in the cell. -/
def Cell.outputsOfOwner (c : Cell H) (owner : H) : List (Output H) :=
  c.outputs.filter fun o => o.lock = owner

/-- The output that an input refers to, if it refers to one of the cell. -/
def Input.output [Blake3 H] (c : Cell H) (i : Input H) : Option (Output H) :=
  if i.outputIndex.cellHash = c.hash then c.outputs[i.outputIndex.index.toNat]? else none

/-- The capacity of the output that an input refers to. -/
def Input.capacity [Blake3 H] (c : Cell H) (i : Input H) : Nat :=
  (i.output c).elim 0 fun o => o.capacity.toNat

/-- The capacities of the outputs of `c` that a cell refers to. -/
def Cell.spentFrom [Blake3 H] (c cell : Cell H) : Nat := ∑ i ∈ cell.inputs, i.capacity c

/-- The outputs that are locked to a key, with their positions from `n` on as `u8`. -/
def ownedAt (pkh : H) (outputs : List (Output H)) (n : Nat) : List (Output H × UInt8) :=
  ((outputs.zipIdx n).filter fun x => x.1.lock = pkh).map fun x => (x.1, UInt8.ofNat x.2)

theorem ownedAt_cons (pkh : H) (o : Output H) (outputs : List (Output H)) (n : Nat) :
    ownedAt pkh (o :: outputs) n =
      if o.lock = pkh then (o, UInt8.ofNat n) :: ownedAt pkh outputs (n + 1)
      else ownedAt pkh outputs (n + 1) := by
  unfold ownedAt
  rw [List.zipIdx_cons, List.filter_cons]
  split <;> simp_all

theorem ownedAt_outputs (pkh : H) (outputs : List (Output H)) (n : Nat) :
    (ownedAt pkh outputs n).map Prod.fst = outputs.filter fun o => o.lock = pkh := by
  induction outputs generalizing n with
  | nil => rfl
  | cons o outputs ih =>
    rw [ownedAt_cons, List.filter_cons]
    by_cases owned : o.lock = pkh <;> simp [owned, ih]

/-- The indices are positions as long as there are at most 256 of them. -/
theorem ownedAt_get {pkh : H} {outputs : List (Output H)} (few : outputs.length ≤ 2 ^ 8)
    {x : Output H × UInt8} (listed : x ∈ ownedAt pkh outputs 0) :
    outputs[x.2.toNat]? = some x.1 ∧ x.1.lock = pkh := by
  obtain ⟨⟨o, j⟩, kept, rfl⟩ := List.mem_map.mp listed
  obtain ⟨placed, owned⟩ := List.mem_filter.mp kept
  obtain ⟨inside, found⟩ := List.mem_zipIdx' placed
  have small : j < 2 ^ 8 := by omega
  refine ⟨?_, of_decide_eq_true owned⟩
  rw [UInt8.toNat_ofNat_of_lt' small, List.getElem?_eq_getElem inside, ← found]

theorem ownedAt_nodup {pkh : H} {outputs : List (Output H)} (few : outputs.length ≤ 2 ^ 8) :
    ((ownedAt pkh outputs 0).map Prod.snd).Nodup := by
  let owned := outputs.zipIdx.filter fun x => x.1.lock = pkh
  have positions : (owned.map Prod.snd).Nodup := by
    refine List.Nodup.sublist (List.filter_sublist.map _) ?_
    rw [List.zipIdx_map_snd]
    exact List.nodup_range'
  have small : ∀ j ∈ owned.map Prod.snd, j < 2 ^ 8 := by
    intro j listed
    obtain ⟨x, found, rfl⟩ := List.mem_map.mp listed
    exact (List.mem_zipIdx' (List.mem_of_mem_filter found)).1.trans_le few
  have indices : ((owned.map Prod.snd).map UInt8.ofNat).Nodup := by
    refine positions.map_on fun j first k second same => ?_
    rw [← UInt8.toNat_ofNat_of_lt' (small j first), same, UInt8.toNat_ofNat_of_lt' (small k second)]
  rw [List.map_map] at indices
  rwa [ownedAt, List.map_map]

end Owned

/-- What is made of the result of a call that returned. -/
theorem map_returned {ε α β : Type} {x : Option (Except ε α)} {f : α → β} {b : β}
    (returned : x.map (fun result => result.map f) = some (.ok b)) :
    ∃ a, x = some (.ok a) ∧ f a = b := by
  rcases x with _ | _ | a
  · cases returned
  · cases returned
  · exact ⟨a, rfl, Except.ok.inj (Option.some.inj returned)⟩

theorem ofNat_next (n : Nat) : UInt8.ofNat n + 1 = UInt8.ofNat (n + 1) := by
  rw [UInt8.ofNat_add]
  rfl

section Loops
variable {H : Type} [DecidableEq H] [StakeCodec] {build : Build} {pkh : H}
variable {n : Nat} {outputs : List (Output H)}

/-- Whenever the first loop returns, all outputs decode and it has counted positions. -/
theorem ownedOutputs_ok {owned : List (Output H × UInt8)}
    (returned : ownedOutputs build pkh outputs (UInt8.ofNat n) = some (.ok owned)) :
    owned = ownedAt pkh outputs n ∧ ∀ o ∈ outputs, validateOutput o = .ok () := by
  induction outputs generalizing n owned with
  | nil => exact ⟨(Except.ok.inj (Option.some.inj returned)).symm, by simp⟩
  | cons o outputs ih =>
    rw [ownedOutputs] at returned
    split at returned
    · cases Option.some.inj returned
    · rename_i decoded
      split at returned
      · contradiction
      · rename_i next added
        obtain rfl := (Build.add8_eq added).trans (ofNat_next n)
        obtain ⟨rest, later, same⟩ := map_returned returned
        obtain ⟨rfl, others⟩ := ih later
        rw [ownedAt_cons]
        exact ⟨same.symm, List.forall_mem_cons.mpr ⟨decoded, others⟩⟩

omit [StakeCodec] [DecidableEq H] in
theorem add8_position (few : n + 1 < 2 ^ 8) :
    build.add8 (UInt8.ofNat n) 1 = some (UInt8.ofNat (n + 1)) := by
  have small : n < 2 ^ 8 := by omega
  rw [← ofNat_next]
  refine Build.add8_fits ?_
  rw [UInt8.toNat_ofNat_of_lt' small]
  exact few

/-- The loop counts no further than its index goes: the outputs are not too many, or one of
them does not decode and ends the loop. -/
def Countable (outputs : List (Output H)) (n : Nat) : Prop :=
  n + outputs.length < 2 ^ 8 ∨
    n + outputs.length = 2 ^ 8 ∧ ∃ o ∈ outputs, validateOutput o ≠ .ok ()

theorem ownedOutputs_counts (countable : Countable outputs n) :
    ∃ result, ownedOutputs build pkh outputs (UInt8.ofNat n) = some result := by
  induction outputs generalizing n with
  | nil => exact ⟨_, rfl⟩
  | cons o outputs ih =>
    rw [ownedOutputs]
    split
    · exact ⟨_, rfl⟩
    · rename_i decoded
      rw [Countable, List.length_cons] at countable
      have rest : n + 1 < 2 ^ 8 ∧ Countable outputs (n + 1) := by
        rcases countable with few | ⟨full, bad, listed, refused⟩
        · exact ⟨by omega, .inl (by omega)⟩
        · rcases List.mem_cons.mp listed with rfl | later
          · exact absurd decoded refused
          · have := List.length_pos_of_mem later
            exact ⟨by omega, .inr ⟨by omega, bad, later, refused⟩⟩
      obtain ⟨result, later⟩ := ih rest.2
      rw [add8_position rest.1]
      simp only [later]
      exact ⟨_, rfl⟩

/-- An index that is counted past the last one overflows. -/
theorem ownedOutputs_overflows (decoded : ∀ o ∈ outputs, validateOutput o = .ok ())
    (small : n < 2 ^ 8) (many : 2 ^ 8 ≤ n + outputs.length) :
    ownedOutputs .checked pkh outputs (UInt8.ofNat n) = none := by
  induction outputs generalizing n with
  | nil => exact absurd many (Nat.not_le.mpr small)
  | cons o outputs ih =>
    rw [List.length_cons] at many
    rw [ownedOutputs, decoded o List.mem_cons_self]
    by_cases room : n + 1 < 2 ^ 8
    · have later := ih (fun o listed => decoded o (List.mem_cons_of_mem _ listed)) room (by omega)
      rw [add8_position room]
      simp only [later, Option.map_none]
    · have past : Build.checked.add8 (UInt8.ofNat n) 1 = none := by
        refine if_neg ?_
        rwa [UInt8.toNat_ofNat_of_lt' small]
      rw [past]

/-- With fewer than 256 outputs, all of which decode, the first loop returns. -/
theorem ownedOutputs_decoded (decoded : ∀ o ∈ outputs, validateOutput o = .ok ())
    (few : n + outputs.length < 2 ^ 8) :
    ownedOutputs build pkh outputs (UInt8.ofNat n) = some (.ok (ownedAt pkh outputs n)) := by
  induction outputs generalizing n with
  | nil => rfl
  | cons o outputs ih =>
    rw [List.length_cons] at few
    have later := ih (n := n + 1) (fun o listed => decoded o (List.mem_cons_of_mem _ listed))
      (by omega)
    rw [ownedOutputs, decoded o List.mem_cons_self, add8_position (by omega), ownedAt_cons]
    simp only [later]
    rfl

end Loops

/-- The first `k` outputs are the fewest that reach an amount, and exceed it by `residue`. -/
structure Covers {H : Type} (outputs : List (Output H)) (amount k residue : Nat) : Prop where
  reached : exactOf (outputs.take k) = amount + residue
  least : ∀ j, amount ≤ exactOf (outputs.take j) → k ≤ j

namespace Covers
variable {H : Type} {o : Output H} {outputs : List (Output H)} {amount k residue : Nat}

theorem exactOf_cons (o : Output H) (outputs : List (Output H)) :
    exactOf (o :: outputs) = o.capacity.toNat + exactOf outputs := rfl

theorem first (positive : 0 < amount) (reaches : amount ≤ o.capacity.toNat) :
    Covers (o :: outputs) amount 1 (o.capacity.toNat - amount) where
  reached := by
    rw [List.take_succ_cons, List.take_zero, exactOf_cons]
    change o.capacity.toNat + 0 = _
    omega
  least j enough := by
    cases j with
    | zero => exact absurd enough (Nat.not_le_of_lt positive)
    | succ j => exact Nat.succ_le_succ (Nat.zero_le j)

theorem cons (short : o.capacity.toNat < amount)
    (rest : Covers outputs (amount - o.capacity.toNat) k residue) :
    Covers (o :: outputs) amount (k + 1) residue where
  reached := by
    rw [List.take_succ_cons, exactOf_cons, rest.reached]
    omega
  least j enough := by
    cases j with
    | zero => exact absurd enough (Nat.not_le_of_lt (Nat.zero_lt_of_lt short))
    | succ j =>
      rw [List.take_succ_cons, exactOf_cons] at enough
      exact Nat.succ_le_succ (rest.least j (by omega))

/-- The residue is at least a bound if no number of outputs ends within it. -/
theorem le_residue_iff (covers : Covers outputs amount k residue) (bound : Nat) :
    bound ≤ residue ↔
      ∀ j, amount ≤ exactOf (outputs.take j) → amount + bound ≤ exactOf (outputs.take j) := by
  constructor
  · intro more j enough
    have longer : (outputs.take k).Sublist (outputs.take j) :=
      (List.take_prefix_take_left (covers.least j enough)).sublist
    have larger : exactOf (outputs.take k) ≤ exactOf (outputs.take j) :=
      (longer.map _).sum_le_sum fun _ _ => Nat.zero_le _
    rw [covers.reached] at larger
    omega
  · intro wide
    have reached := covers.reached
    have beyond := wide k (by omega)
    omega

end Covers

section Consume
variable {H : Type} [Blake3 H] {key : Keypair H} {cellHash : H} {amount : UInt64}

theorem consumeOutputs_done {owned : List (Output H × UInt8)} {spending : UInt64}
    {result : ConsumeResult H} (done : result.consumed = amount) :
    consumeOutputs key cellHash amount owned spending result = result := by
  cases owned with
  | nil => rfl
  | cons x rest => simp only [consumeOutputs, done, UInt64.lt_irrefl, if_false]

section Turn
variable {o : Output H} {index : UInt8} {rest : List (Output H × UInt8)} {spending : UInt64}
  {result : ConsumeResult H}

/-- An output of less than what is left to spend is spent as a whole. -/
theorem consumeOutputs_whole (left : result.consumed.toNat + spending.toNat = amount.toNat)
    (less : o.capacity.toNat < spending.toNat) :
    consumeOutputs key cellHash amount ((o, index) :: rest) spending result =
      consumeOutputs key cellHash amount rest (spending - o.capacity)
        ⟨result.consumed + o.capacity, result.residue,
          result.inputs ++ [Input.new key cellHash index]⟩ := by
  have goes : result.consumed < amount := by
    rw [UInt64.lt_iff_toNat_lt]
    omega
  rw [consumeOutputs, if_pos goes, if_pos (UInt64.le_iff_toNat_le.mpr less.le)]

/-- An output of all that is left to spend is the last one. -/
theorem consumeOutputs_last (left : result.consumed.toNat + spending.toNat = amount.toNat)
    (positive : 0 < spending.toNat) (enough : spending.toNat ≤ o.capacity.toNat)
    (clear : result.residue = 0) :
    consumeOutputs key cellHash amount ((o, index) :: rest) spending result =
      ⟨amount, o.capacity - spending, result.inputs ++ [Input.new key cellHash index]⟩ := by
  have goes : result.consumed < amount := by
    rw [UInt64.lt_iff_toNat_lt]
    omega
  have done : result.consumed + spending = amount := by
    refine UInt64.toNat_inj.mp ?_
    rw [UInt64.toNat_add, left, Nat.mod_eq_of_lt amount.toNat_lt]
  rw [consumeOutputs, if_pos goes]
  by_cases whole : o.capacity ≤ spending
  · obtain rfl : o.capacity = spending :=
      UInt64.toNat_inj.mp (Nat.le_antisymm (UInt64.le_iff_toNat_le.mp whole) enough)
    rw [if_pos whole, consumeOutputs_done done, done, clear, UInt64.sub_self]
  · rw [if_neg whole, consumeOutputs_done done, done]

end Turn

/-- The second loop spends as few outputs as cover what is left to spend. -/
theorem consumeOutputs_covers {owned : List (Output H × UInt8)} {spending : UInt64}
    {result : ConsumeResult H}
    (left : result.consumed.toNat + spending.toNat = amount.toNat) (positive : 0 < spending.toNat)
    (enough : spending.toNat ≤ exactOf (owned.map Prod.fst)) (clear : result.residue = 0) :
    ∃ k residue, Covers (owned.map Prod.fst) spending.toNat k (UInt64.toNat residue) ∧
      consumeOutputs key cellHash amount owned spending result =
        ⟨amount, residue,
          result.inputs ++ (owned.take k).map fun x => Input.new key cellHash x.2⟩ := by
  induction owned generalizing spending result with
  | nil => exact absurd enough (Nat.not_le_of_lt positive)
  | cons x rest ih =>
    obtain ⟨o, index⟩ := x
    rcases Nat.lt_or_ge o.capacity.toNat spending.toNat with more | last
    · have spent : (spending - o.capacity).toNat = spending.toNat - o.capacity.toNat :=
        UInt64.toNat_sub_of_le _ _ (UInt64.le_iff_toNat_le.mpr more.le)
      have added : (result.consumed + o.capacity).toNat =
          result.consumed.toNat + o.capacity.toNat := by
        have fits := amount.toNat_lt
        rw [UInt64.toNat_add, Nat.mod_eq_of_lt (by omega)]
      have further : (result.consumed + o.capacity).toNat + (spending - o.capacity).toNat =
          amount.toNat := by
        rw [spent, added]
        omega
      have remains : (spending - o.capacity).toNat ≤ exactOf (rest.map Prod.fst) := by
        change spending.toNat ≤ o.capacity.toNat + exactOf (rest.map Prod.fst) at enough
        omega
      obtain ⟨k, residue, covers, same⟩ := @ih (spending - o.capacity)
        ⟨_, _, result.inputs ++ [Input.new key cellHash index]⟩ further (by omega) remains clear
      refine ⟨k + 1, residue, .cons more (spent ▸ covers), ?_⟩
      rw [consumeOutputs_whole left more, same, List.take_succ_cons, List.map_cons,
        List.append_assoc]
      rfl
    · refine ⟨1, o.capacity - spending, ?_, consumeOutputs_last left positive last clear⟩
      rw [UInt64.toNat_sub_of_le _ _ (UInt64.le_iff_toNat_le.mpr last)]
      exact Covers.first positive last

/-- The inputs are for the first of the owned outputs. -/
theorem consumeOutputs_inputs (owned : List (Output H × UInt8)) (spending : UInt64)
    (result : ConsumeResult H) :
    ∃ k, (consumeOutputs key cellHash amount owned spending result).inputs =
      result.inputs ++ (owned.take k).map fun x => .new key cellHash x.2 := by
  induction owned generalizing spending result with
  | nil => exact ⟨0, (List.append_nil _).symm⟩
  | cons x rest ih =>
    -- a turn appends one input, so that one more output is taken than by the later turns
    have turn (spending : UInt64) (consumed residue : UInt64) :
        ∃ k, (consumeOutputs key cellHash amount rest spending
            ⟨consumed, residue, result.inputs ++ [.new key cellHash x.2]⟩).inputs =
          result.inputs ++ ((x :: rest).take k).map fun x => .new key cellHash x.2 := by
      obtain ⟨k, same⟩ := ih spending ⟨consumed, residue, result.inputs ++ [.new key cellHash x.2]⟩
      refine ⟨k + 1, ?_⟩
      rw [same, List.take_succ_cons, List.map_cons, List.append_assoc]
      rfl
    simp only [consumeOutputs]
    split
    · split
      · exact turn _ _ _
      · exact turn _ _ _
    · exact ⟨0, (List.append_nil _).symm⟩

end Consume

section Results
variable {H : Type} [DecidableEq H] [Blake3 H] [KeyDigest H] [StakeCodec] {build : Build}
variable {c : Cell H} {amount : UInt64} {key : Keypair H}

omit [DecidableEq H] [Blake3 H] [KeyDigest H] [StakeCodec] in
theorem validateCapacity_eq {outputs : List (Output H)} (bounded : exactOf outputs < 2 ^ 64) :
    validateCapacity build outputs amount FEE =
      some (if amount = 0 then .error .zeroTransfer
        else if exactOf outputs < amount.toNat + FEE.toNat then .error .exceedsAvailableFunds
        else .ok ()) := by
  have capacities : (0 : UInt64).toNat + ((outputs.map Output.capacity).map UInt64.toNat).sum =
      exactOf outputs := by
    rw [List.map_map, UInt64.toNat_zero, Nat.zero_add]
    rfl
  have sum : ∃ total, build.sum64 (outputs.map Output.capacity) 0 = some total ∧ _ :=
    Build.sum64_fits (capacities.trans_lt bounded)
  obtain ⟨total, summed, same⟩ := sum
  rw [capacities] at same
  have short : (total < FEE ∨ total - FEE < amount) ↔
      exactOf outputs < amount.toNat + FEE.toNat := by
    rw [← same, UInt64.lt_iff_toNat_lt, UInt64.lt_iff_toNat_lt]
    by_cases covered : FEE ≤ total
    · rw [UInt64.toNat_sub_of_le _ _ covered]
      rw [UInt64.le_iff_toNat_le] at covered
      omega
    · rw [UInt64.le_iff_toNat_le] at covered
      omega
  rw [validateCapacity, summed, Option.map_some]
  simp only [short]

/-- Once the first loop has returned, the capacity decides: an owner without outputs has no
funds. -/
theorem consumeFromCell_eq (bounded : exactOf (c.outputsOfOwner key.hash) < 2 ^ 64)
    (returned : ownedOutputs build key.hash c.outputs 0 =
      some (.ok (ownedAt key.hash c.outputs 0))) :
    consumeFromCell build c amount key =
      some (if amount = 0 then .error .zeroTransfer
        else if exactOf (c.outputsOfOwner key.hash) < amount.toNat + FEE.toNat then
          .error .exceedsAvailableFunds
        else .ok (consumeOutputs key c.hash amount (ownedAt key.hash c.outputs 0) amount
          ⟨0, 0, []⟩)) := by
  have outputs : (ownedAt key.hash c.outputs 0).map Prod.fst = c.outputsOfOwner key.hash :=
    ownedAt_outputs _ _ _
  simp only [consumeFromCell, returned, outputs, validateCapacity_eq bounded]
  by_cases zero : amount = 0
  · simp only [if_pos zero]
  · simp only [if_neg zero]
    by_cases short : exactOf (c.outputsOfOwner key.hash) < amount.toNat + FEE.toNat
    · simp only [if_pos short]
    · have owns : 0 < (ownedAt key.hash c.outputs 0).length := by
        rw [← List.length_map Prod.fst, outputs, List.length_pos_iff]
        intro none
        rw [none] at short
        have fee : 0 < FEE.toNat := by decide
        exact short (Nat.lt_of_lt_of_le fee (Nat.le_add_left _ _))
      simp only [if_neg short, if_pos owns]

theorem consumeFromCell_loop {r : ConsumeResult H}
    (returned : consumeFromCell build c amount key = some (.ok r)) :
    ownedOutputs build key.hash c.outputs 0 = some (.ok (ownedAt key.hash c.outputs 0)) := by
  rw [consumeFromCell] at returned
  split at returned
  · contradiction
  · cases Option.some.inj returned
  · rename_i owned first
    rw [first, (ownedOutputs_ok (n := 0) first).1]

/-- Where overflow is checked for, a result means that the index and the sum of the owned
capacities did not overflow. -/
theorem consumeFromCell_fits {r : ConsumeResult H}
    (returned : consumeFromCell .checked c amount key = some (.ok r)) :
    c.outputs.length ≤ 255 ∧ exactOf (c.outputsOfOwner key.hash) < 2 ^ 64 := by
  have loop := consumeFromCell_loop returned
  constructor
  · by_contra many
    have overflow : ownedOutputs .checked key.hash c.outputs 0 = none :=
      ownedOutputs_overflows (n := 0) (ownedOutputs_ok (n := 0) loop).2 (by omega) (by omega)
    cases overflow.symm.trans loop
  · have outputs : (ownedAt key.hash c.outputs 0).map Prod.fst = c.outputsOfOwner key.hash :=
      ownedAt_outputs _ _ _
    simp only [consumeFromCell, loop, outputs, validateCapacity] at returned
    cases summed : Build.checked.sum64 ((c.outputsOfOwner key.hash).map Output.capacity) 0 with
    | none =>
      rw [summed] at returned
      cases returned
    | some sum =>
      have fits := Build.sum64_checked summed
      rw [List.map_map, UInt64.toNat_zero, Nat.zero_add] at fits
      exact fits

/-- A result spends as few of the owned outputs as cover the amount. -/
theorem consumeFromCell_covers (bounded : exactOf (c.outputsOfOwner key.hash) < 2 ^ 64)
    {r : ConsumeResult H} (returned : consumeFromCell build c amount key = some (.ok r)) :
    r.consumed = amount ∧ ∃ k, Covers (c.outputsOfOwner key.hash) amount.toNat k r.residue.toNat ∧
      r.inputs = ((ownedAt key.hash c.outputs 0).take k).map fun x => .new key c.hash x.2 := by
  rw [consumeFromCell_eq bounded (consumeFromCell_loop returned)] at returned
  by_cases zero : amount = 0
  · rw [if_pos zero] at returned
    cases Option.some.inj returned
  · rw [if_neg zero] at returned
    split at returned
    · cases Option.some.inj returned
    · rename_i funded
      have positive : 0 < amount.toNat :=
        Nat.pos_of_ne_zero fun none => zero (UInt64.toNat_inj.mp none)
      have outputs := ownedAt_outputs key.hash c.outputs 0
      have enough : amount.toNat ≤ exactOf ((ownedAt key.hash c.outputs 0).map Prod.fst) := by
        rw [outputs]
        exact (Nat.le_add_right _ _).trans (Nat.not_lt.mp funded)
      have loop : ∃ k residue, Covers _ amount.toNat k (UInt64.toNat residue) ∧
          consumeOutputs key c.hash amount (ownedAt key.hash c.outputs 0) amount ⟨0, 0, []⟩ = _ :=
        consumeOutputs_covers (Nat.zero_add _) positive enough rfl
      obtain ⟨k, residue, covers, same⟩ := loop
      rw [outputs] at covers
      obtain rfl := Except.ok.inj (Option.some.inj returned)
      rw [same]
      exact ⟨rfl, k, covers, rfl⟩

end Results

section Inputs
variable {H : Type} [DecidableEq H] [Blake3 H] {c : Cell H} {key : Keypair H} {pkh : H}

theorem Input.output_new (index : UInt8) :
    (Input.new key c.hash index).output c = c.outputs[index.toNat]? := if_pos rfl

/-- The input for an owned output refers to that output. -/
theorem Input.output_owned (few : c.outputs.length ≤ 2 ^ 8) {x : Output H × UInt8}
    (listed : x ∈ ownedAt pkh c.outputs 0) :
    (Input.new key c.hash x.2).output c = some x.1 ∧ x.1.lock = pkh := by
  rw [Input.output_new]
  exact ownedAt_get few listed

theorem inputs_owned (few : c.outputs.length ≤ 2 ^ 8) {k : Nat} :
    ∀ i ∈ ((ownedAt pkh c.outputs 0).take k).map fun x => Input.new key c.hash x.2,
      ∃ o, i.output c = some o ∧ o.lock = pkh := by
  intro i made
  obtain ⟨x, taken, rfl⟩ := List.mem_map.mp made
  exact ⟨x.1, Input.output_owned few (List.mem_of_mem_take taken)⟩

theorem inputs_nodup (few : c.outputs.length ≤ 2 ^ 8) (k : Nat) :
    ((((ownedAt pkh c.outputs 0).take k).map fun x => Input.new key c.hash x.2).map
      fun i => i.outputIndex.index).Nodup := by
  rw [List.map_map]
  exact (ownedAt_nodup few).sublist ((List.take_sublist k _).map _)

theorem inputs_capacity (few : c.outputs.length ≤ 2 ^ 8) (k : Nat) :
    ((((ownedAt pkh c.outputs 0).take k).map fun x => Input.new key c.hash x.2).map
      (Input.capacity c)).sum = exactOf ((c.outputsOfOwner pkh).take k) := by
  have outputs : c.outputsOfOwner pkh = (ownedAt pkh c.outputs 0).map Prod.fst :=
    (ownedAt_outputs pkh c.outputs 0).symm
  rw [exactOf, outputs, ← List.map_take, List.map_map, List.map_map]
  refine congrArg List.sum (List.map_congr_left fun x taken => ?_)
  have found : (Input.new key c.hash x.2).output c = some x.1 :=
    (Input.output_owned few (List.mem_of_mem_take taken)).1
  rw [Function.comp_apply, Input.capacity, found]
  rfl

end Inputs

/-- What is taken from a cell for an amount: distinct outputs of the owner, whose capacity
is the amount and the residue. -/
structure Conserves {H : Type} [DecidableEq H] [Blake3 H] [KeyDigest H] (c : Cell H)
    (key : Keypair H) (amount : UInt64) (r : ConsumeResult H) : Prop where
  consumed : r.consumed = amount
  distinct : (r.inputs.map fun i => i.outputIndex.index).Nodup
  owned : ∀ i ∈ r.inputs, ∃ o, i.output c = some o ∧ o.lock = key.hash
  total : (r.inputs.map (Input.capacity c)).sum = r.consumed.toNat + r.residue.toNat

theorem consumeFromCell_conserves {H : Type} [DecidableEq H] [Blake3 H] [KeyDigest H]
    [StakeCodec] {build : Build} {c : Cell H} {amount : UInt64} {key : Keypair H}
    {r : ConsumeResult H} (few : c.outputs.length ≤ 255)
    (bounded : exactOf (c.outputsOfOwner key.hash) < 2 ^ 64)
    (returned : consumeFromCell build c amount key = some (.ok r)) : Conserves c key amount r := by
  obtain ⟨consumed, k, covers, inputs⟩ := consumeFromCell_covers bounded returned
  have few : c.outputs.length ≤ 2 ^ 8 := by omega
  exact {
    consumed := consumed
    distinct := inputs ▸ inputs_nodup few k
    owned := inputs ▸ inputs_owned few
    total := by rw [inputs, inputs_capacity few k, covers.reached, consumed] }

/-- The change that is paid out: the residue less the fee, if there is more of it. -/
def change (residue : UInt64) : Nat :=
  if FEE < residue then residue.toNat - FEE.toNat else 0

theorem change_le (residue : UInt64) : change residue ≤ residue.toNat := by
  unfold change
  split
  · exact Nat.sub_le _ _
  · exact Nat.zero_le _

/-- The fee is what is spent and not paid out, if there is a residue for it. -/
theorem fee_le_iff (residue : UInt64) :
    change residue + FEE.toNat ≤ residue.toNat ↔ FEE.toNat ≤ residue.toNat := by
  unfold change
  split
  · rename_i more
    rw [UInt64.lt_iff_toNat_lt] at more
    omega
  · omega

section PayOut
variable {H : Type} [LinearOrder H] [Blake3 H]

omit [Blake3 H] in
theorem payOut_outputs {mainOutput : UInt64 → Output H}
    (capacity : ∀ n, (mainOutput n).capacity = n) (changeAddress : H) (r : ConsumeResult H) :
    exactOf (payOut mainOutput changeAddress r).outputs =
      r.consumed.toNat + change r.residue := by
  have sorted (outputs : List (Output H)) : exactOf (Outputs.new outputs) = exactOf outputs :=
    ((List.perm_insertionSort _ outputs).map _).sum_eq
  rw [payOut, sorted, change]
  by_cases more : FEE < r.residue
  · have less : (r.residue - FEE).toNat = r.residue.toNat - FEE.toNat :=
      UInt64.toNat_sub_of_le _ _ (UInt64.le_of_lt more)
    have positive : 0 < r.residue - FEE := by
      rw [UInt64.lt_iff_toNat_lt] at more ⊢
      rw [less, UInt64.toNat_zero]
      omega
    rw [if_pos ⟨more, positive⟩, if_pos more, ← less]
    simp [exactOf, capacity, transferOutput]
  · rw [if_neg fun both => more both.1, if_neg more]
    simp [exactOf, capacity]

theorem payOut_spent {mainOutput : UInt64 → Output H} {changeAddress : H} {r : ConsumeResult H}
    (c : Cell H) (distinct : (r.inputs.map fun i => i.outputIndex.index).Nodup) :
    c.spentFrom (payOut mainOutput changeAddress r) = (r.inputs.map (Input.capacity c)).sum :=
  List.sum_toFinset _ distinct.of_map

variable [KeyDigest H] [StakeCodec] {build : Build} {c : Cell H} {amount : UInt64}
variable {key : Keypair H}

section Made
variable (few : c.outputs.length ≤ 255) (bounded : exactOf (c.outputsOfOwner key.hash) < 2 ^ 64)
  {mainOutput : UInt64 → Output H} (capacity : ∀ n, (mainOutput n).capacity = n)
  {changeAddress : H} {cell : Cell H} (returned : (consumeFromCell build c amount key).map
    (fun result => result.map (payOut mainOutput changeAddress)) = some (.ok cell))
include few bounded capacity returned

/-- What a cell made by one of the operations spends and pays out. -/
theorem payOut_returned : ∃ r, consumeFromCell build c amount key = some (.ok r) ∧
    c.spentFrom cell = amount.toNat + r.residue.toNat ∧
    exactOf cell.outputs = amount.toNat + change r.residue := by
  obtain ⟨r, consumed, rfl⟩ := map_returned returned
  have conserves := consumeFromCell_conserves few bounded consumed
  refine ⟨r, consumed, ?_, ?_⟩
  · rw [payOut_spent c conserves.distinct, conserves.total, conserves.consumed]
  · rw [payOut_outputs capacity, conserves.consumed]

theorem payOut_covered : ∃ r, consumeFromCell build c amount key = some (.ok r) ∧
    exactOf cell.outputs = amount.toNat + change r.residue ∧
    exactOf cell.outputs ≤ c.spentFrom cell := by
  obtain ⟨r, consumed, spent, paid⟩ := payOut_returned few bounded capacity returned
  refine ⟨r, consumed, paid, ?_⟩
  rw [paid, spent]
  exact Nat.add_le_add_left (change_le _) _

/-- Whether the fee is paid depends on where the capacities of the owned outputs end. -/
theorem payOut_fee :
    exactOf cell.outputs + FEE.toNat ≤ c.spentFrom cell ↔
      ∀ j, amount.toNat ≤ exactOf ((c.outputsOfOwner key.hash).take j) →
        amount.toNat + FEE.toNat ≤ exactOf ((c.outputsOfOwner key.hash).take j) := by
  obtain ⟨r, consumed, spent, paid⟩ := payOut_returned few bounded capacity returned
  obtain ⟨_, k, covers, _⟩ := consumeFromCell_covers bounded consumed
  rw [spent, paid, Nat.add_assoc, Nat.add_le_add_iff_left, fee_le_iff, covers.le_residue_iff]

end Made

theorem operation_fits (wraps : build = .wrapping →
      c.outputs.length ≤ 255 ∧ exactOf (c.outputsOfOwner key.hash) < 2 ^ 64)
    {make : ConsumeResult H → Cell H} {cell : Cell H}
    (returned : (consumeFromCell build c amount key).map (fun result => result.map make) =
      some (.ok cell)) :
    c.outputs.length ≤ 255 ∧ exactOf (c.outputsOfOwner key.hash) < 2 ^ 64 := by
  obtain ⟨r, consumed, _⟩ := map_returned returned
  cases build with
  | checked => exact consumeFromCell_fits consumed
  | wrapping => exact wraps rfl

variable (build c amount key)

/-- Capacity is conserved: what is consumed is the amount, out of distinct outputs of the
owner that hold the amount and the residue, and a new cell pays out the amount and what
exceeds the fee in the residue. -/
theorem operations_conserve (few : c.outputs.length ≤ 255)
    (bounded : exactOf (c.outputsOfOwner key.hash) < 2 ^ 64) :
    (∀ r, consumeFromCell build c amount key = some (.ok r) → Conserves c key amount r) ∧
    (∀ recipient changeAddress cell,
      (TransferOperation.mk c recipient changeAddress amount).transfer build key =
        some (.ok cell) →
      ∃ r, consumeFromCell build c amount key = some (.ok r) ∧
        exactOf cell.outputs = amount.toNat +
          (if FEE < r.residue then r.residue.toNat - FEE.toNat else 0) ∧
        exactOf cell.outputs ≤ c.spentFrom cell) ∧
    ∀ nodeId address cell,
      (StakeOperation.mk c nodeId address amount).stake build key = some (.ok cell) →
      ∃ r, consumeFromCell build c amount key = some (.ok r) ∧
        exactOf cell.outputs = amount.toNat +
          (if FEE < r.residue then r.residue.toNat - FEE.toNat else 0) ∧
        exactOf cell.outputs ≤ c.spentFrom cell := by
  refine ⟨fun r returned => consumeFromCell_conserves few bounded returned, ?_, ?_⟩
  · intro recipient changeAddress cell returned
    exact payOut_covered few bounded (fun _ => rfl) returned
  · intro nodeId address cell returned
    exact payOut_covered few bounded (fun _ => rfl) returned

/-- An operation pays the fee exactly if no number of owned outputs, from the first on, has
a capacity that reaches the amount but not the amount and the fee. That nothing overflows is
asked only of a build that does not check it. -/
theorem fee_paid_iff (wraps : build = .wrapping →
      c.outputs.length ≤ 255 ∧ exactOf (c.outputsOfOwner key.hash) < 2 ^ 64) :
    (∀ recipient changeAddress cell,
      (TransferOperation.mk c recipient changeAddress amount).transfer build key =
        some (.ok cell) →
      (exactOf cell.outputs + FEE.toNat ≤ c.spentFrom cell ↔
        ∀ j, amount.toNat ≤ exactOf ((c.outputsOfOwner key.hash).take j) →
          amount.toNat + FEE.toNat ≤ exactOf ((c.outputsOfOwner key.hash).take j))) ∧
    ∀ nodeId address cell,
      (StakeOperation.mk c nodeId address amount).stake build key = some (.ok cell) →
      (exactOf cell.outputs + FEE.toNat ≤ c.spentFrom cell ↔
        ∀ j, amount.toNat ≤ exactOf ((c.outputsOfOwner key.hash).take j) →
          amount.toNat + FEE.toNat ≤ exactOf ((c.outputsOfOwner key.hash).take j)) := by
  constructor
  · intro recipient changeAddress cell returned
    obtain ⟨few, bounded⟩ := operation_fits wraps returned
    exact payOut_fee few bounded (fun _ => rfl) returned
  · intro nodeId address cell returned
    obtain ⟨few, bounded⟩ := operation_fits wraps returned
    exact payOut_fee few bounded (fun _ => rfl) returned

end PayOut

section Refusals
variable {H : Type} [DecidableEq H] [Blake3 H] [KeyDigest H] [StakeCodec]

/-- What the documentation of `consume_from_cell` says it returns. -/
structure AsDocumented (build : Build) (c : Cell H) (amount : UInt64) (key : Keypair H) :
    Prop where
  unspendable : consumeFromCell build c amount key = some (.error .unspendableCell) ↔
    c.outputsOfOwner key.hash = []
  zero : c.outputsOfOwner key.hash ≠ [] →
    (consumeFromCell build c amount key = some (.error .zeroTransfer) ↔ amount = 0)
  exceeds : c.outputsOfOwner key.hash ≠ [] → amount ≠ 0 →
    (consumeFromCell build c amount key = some (.error .exceedsAvailableFunds) ↔
      exactOf (c.outputsOfOwner key.hash) < amount.toNat + FEE.toNat)
  returns : c.outputsOfOwner key.hash ≠ [] → amount ≠ 0 →
    amount.toNat + FEE.toNat ≤ exactOf (c.outputsOfOwner key.hash) →
    ∃ r, consumeFromCell build c amount key = some (.ok r)

variable {build : Build} {c : Cell H} {amount : UInt64} {key : Keypair H}

/-- The results are as documented for a key that owns an output, and only then: the check
of the capacity fails before the cell is found unspendable. -/
theorem documented_iff_owned (few : c.outputs.length ≤ 255)
    (decoded : ∀ o ∈ c.outputs, validateOutput o = .ok ())
    (bounded : exactOf (c.outputsOfOwner key.hash) < 2 ^ 64) :
    AsDocumented build c amount key ↔ c.outputsOfOwner key.hash ≠ [] := by
  have loop : ownedOutputs build key.hash c.outputs 0 =
      some (.ok (ownedAt key.hash c.outputs 0)) := ownedOutputs_decoded (n := 0) decoded (by omega)
  have result : consumeFromCell build c amount key = _ := consumeFromCell_eq bounded loop
  have spendable : consumeFromCell build c amount key ≠ some (.error .unspendableCell) := by
    rw [result]
    split
    · simp
    · split <;> simp
  constructor
  · exact fun documented none => spendable (documented.unspendable.mpr none)
  · intro owns
    refine ⟨iff_of_false spendable owns, fun _ => ?_, fun _ positive => ?_,
      fun _ positive funded => ?_⟩
    · rw [result]
      split
      · simp_all
      · split <;> simp_all
    · rw [result, if_neg positive]
      split <;> simp_all
    · rw [result, if_neg positive, if_neg (Nat.not_lt.mpr funded)]
      exact ⟨_, rfl⟩

end Refusals

section Positions
variable {H : Type} [DecidableEq H] [Blake3 H] [KeyDigest H] [StakeCodec] {c : Cell H}

/-- The positions of the outputs of an owner. -/
def Cell.positionsOf (c : Cell H) (owner : H) : List Nat :=
  (c.outputs.zipIdx.filter fun x => x.1.lock = owner).map Prod.snd

omit [Blake3 H] [KeyDigest H] [StakeCodec] in
theorem Cell.positionsOf_lt {owner : H} {j : Nat} (listed : j ∈ c.positionsOf owner) :
    j < c.outputs.length := by
  obtain ⟨x, kept, rfl⟩ := List.mem_map.mp listed
  exact (List.mem_zipIdx' (List.mem_of_mem_filter kept)).1

omit [Blake3 H] [KeyDigest H] [StakeCodec] in
theorem ownedAt_positions (owner : H) :
    (ownedAt owner c.outputs 0).map Prod.snd = (c.positionsOf owner).map UInt8.ofNat := by
  rw [ownedAt, Cell.positionsOf, List.map_map, List.map_map]
  rfl

/-- The inputs that are made are for the first owned positions, in every build that returns. -/
theorem consumeFromCell_indices {build : Build} {amount : UInt64} {key : Keypair H}
    {r : ConsumeResult H} (returned : consumeFromCell build c amount key = some (.ok r)) :
    ∃ k, r.inputs.map (fun i => i.outputIndex) =
      ((c.positionsOf key.hash).take k).map fun j => ⟨c.hash, UInt8.ofNat j⟩ := by
  have loop := consumeFromCell_loop returned
  simp only [consumeFromCell, loop] at returned
  split at returned
  · contradiction
  · cases Option.some.inj returned
  · split at returned
    · obtain rfl := Except.ok.inj (Option.some.inj returned)
      obtain ⟨k, inputs⟩ := consumeOutputs_inputs (ownedAt key.hash c.outputs 0) amount
        (⟨0, 0, []⟩ : ConsumeResult H)
      refine ⟨k, ?_⟩
      rw [inputs, List.nil_append, List.map_map]
      have indices : ((ownedAt key.hash c.outputs 0).take k).map Prod.snd =
          ((c.positionsOf key.hash).take k).map UInt8.ofNat := by
        rw [List.map_take, ownedAt_positions, List.map_take]
      have same := congrArg (List.map (OutputIndex.mk c.hash)) indices
      rw [List.map_map, List.map_map] at same
      exact same
    · cases Option.some.inj returned

omit [KeyDigest H] [StakeCodec] [DecidableEq H] in
theorem fromOutput_position (injective : ∀ h : H, Function.Injective (CellId.fromOutput h))
    (few : c.outputs.length ≤ 2 ^ 8) {j k : Nat} (first : j < c.outputs.length)
    (second : k < c.outputs.length)
    (same : CellId.fromOutput c.hash (UInt8.ofNat j) = CellId.fromOutput c.hash (UInt8.ofNat k)) :
    j = k := by
  have cast := congrArg UInt8.toNat (injective c.hash same)
  rwa [UInt8.toNat_ofNat_of_lt' (first.trans_le few),
    UInt8.toNat_ofNat_of_lt' (second.trans_le few)] at cast

/-- Every output has its own id, and the inputs that are made for the owned ones have these
ids, at indices that do not overflow. -/
structure OwnIds (c : Cell H) : Prop where
  count : (fromOutputs c.hash c.outputs).card = c.outputs.length
  distinct : ∀ j < c.outputs.length, ∀ k < c.outputs.length,
    CellId.fromOutput c.hash (UInt8.ofNat j) = CellId.fromOutput c.hash (UInt8.ofNat k) → j = k
  counted : ∀ (build : Build) (key : Keypair H),
    ∃ result, ownedOutputs build key.hash c.outputs 0 = some result
  inputs : ∀ (build : Build) (amount : UInt64) (key : Keypair H) (r : ConsumeResult H),
    consumeFromCell build c amount key = some (.ok r) → ∃ k,
      r.inputs.map (fun i => i.outputIndex.index.toNat) = (c.positionsOf key.hash).take k ∧
      r.inputs.map Input.cellId = ((c.positionsOf key.hash).take k).map fun j =>
        CellId.fromOutput c.hash (UInt8.ofNat j)

theorem OwnIds.of_countable (injective : ∀ h : H, Function.Injective (CellId.fromOutput h))
    (countable : Countable c.outputs 0) : OwnIds c := by
  have small : c.outputs.length ≤ 2 ^ 8 := by
    rcases countable with few | ⟨full, _⟩ <;> omega
  refine ⟨?_, fun j first k second => fromOutput_position injective small first second,
    fun build key => ownedOutputs_counts countable, fun build amount key r returned => ?_⟩
  · rw [fromOutputs, List.toFinset_card_of_nodup, List.length_map, List.length_range]
    refine List.nodup_range.map_on fun j first k second => ?_
    exact fromOutput_position injective small (List.mem_range.mp first) (List.mem_range.mp second)
  · obtain ⟨k, indices⟩ := consumeFromCell_indices returned
    refine ⟨k, ?_, ?_⟩
    · have values := congrArg (List.map fun o : OutputIndex H => o.index.toNat) indices
      rw [List.map_map, List.map_map] at values
      refine values.trans ((List.map_congr_left fun j taken => ?_).trans (List.map_id _))
      have inside := Cell.positionsOf_lt (List.mem_of_mem_take taken)
      exact UInt8.toNat_ofNat_of_lt' (inside.trans_le small)
    · have ids := congrArg (List.map OutputIndex.cellId) indices
      rw [List.map_map, List.map_map] at ids
      exact ids

/-- The ids are the outputs' own exactly if there are at most 255 outputs, or 256 of which
one does not decode. -/
theorem output_ids_own_iff (injective : ∀ h : H, Function.Injective (CellId.fromOutput h)) :
    OwnIds c ↔ c.outputs.length ≤ 255 ∨
      c.outputs.length = 256 ∧ ∃ o ∈ c.outputs, validateOutput o ≠ .ok () := by
  constructor
  · intro own
    by_contra neither
    push Not at neither
    obtain ⟨many, decode⟩ := neither
    rcases Nat.lt_or_eq_of_le (Nat.succ_le_of_lt many) with more | full
    · -- the positions 0 and 256 have one index
      have same := own.distinct 0 (by omega) 256 more rfl
      contradiction
    · obtain ⟨result, counted⟩ := own.counted .checked ⟨[], fun _ => []⟩
      have overflow : ownedOutputs .checked (⟨[], fun _ => []⟩ : Keypair H).hash c.outputs 0 =
          none := ownedOutputs_overflows (n := 0) (decode full.symm) (by omega) (by omega)
      cases overflow.symm.trans counted
  · intro few
    refine .of_countable injective (few.imp (fun few => ?_) (fun full => ⟨?_, full.2⟩)) <;> omega

end Positions

section Sample

theorem fromOutput_injective (h : Digest) : Function.Injective (CellId.fromOutput h) := by
  intro i j same
  have pair := congrArg (fun id : CellId Digest => id.bytes.value) same
  simp only [CellId.fromOutput, Blake3.ofOutput, Nat.pair_eq_pair] at pair
  exact UInt8.toNat_inj.mp pair.2

instance : KeyDigest Digest where
  ofPublic key := ⟨encodeBytes key⟩

/-- A key is told by the byte that it repeats. -/
def signer (n : UInt8) : Keypair Digest := ⟨List.replicate 32 n, fun _ => List.replicate 64 n⟩

/-- A coinbase cell with some capacities for some signers. -/
def granted (grants : List (UInt8 × UInt64)) : Cell Digest :=
  CoinbaseOperation.tryInto ⟨grants.map fun grant => ((signer grant.1).hash, grant.2)⟩

/-- Returned by a call that did not panic and did not fail. -/
def valueOf {ε α : Type} (x : Option (Except ε α)) : Option α := x.bind Except.toOption

theorem valueOf_eq_some {ε α : Type} {x : Option (Except ε α)} {a : α} :
    valueOf x = some a ↔ x = some (.ok a) := by
  rcases x with _ | _ | _ <;> simp [valueOf, Except.toOption]

/-- Three outputs for the first signer and one for the second. -/
def purse : Cell Digest := granted [(1, 7), (2, 8), (1, 10), (1, 30)]

/-- An amount that ends in the third output. -/
theorem operations_conserve_purse :
    ∃ r cell, consumeFromCell .checked purse 18 (signer 1) = some (.ok r) ∧ r.residue = 29 ∧
      Conserves purse (signer 1) 18 r ∧
      (TransferOperation.mk purse (signer 2).hash (signer 1).hash 18).transfer .checked (signer 1) =
        some (.ok cell) ∧
      exactOf cell.outputs = 44 ∧ exactOf cell.outputs ≤ purse.spentFrom cell := by
  have consumed : (valueOf (consumeFromCell .checked purse 18 (signer 1))).any
      (fun r => r.residue = 29) = true := by decide +kernel
  have made : (valueOf ((TransferOperation.mk purse (signer 2).hash (signer 1).hash 18).transfer
      .checked (signer 1))).any (fun cell => exactOf cell.outputs = 44) = true := by
    decide +kernel
  obtain ⟨r, returned, residue⟩ := (Option.any_eq_true _ _).mp consumed
  obtain ⟨cell, transferred, total⟩ := (Option.any_eq_true _ _).mp made
  have returned := valueOf_eq_some.mp returned
  have transferred := valueOf_eq_some.mp transferred
  obtain ⟨conserves, transfers, _⟩ := operations_conserve .checked purse 18 (signer 1)
    (by decide +kernel) (by decide +kernel)
  obtain ⟨_, _, _, covered⟩ := transfers _ _ _ transferred
  exact ⟨r, cell, returned, of_decide_eq_true residue, conserves r returned, transferred,
    of_decide_eq_true total, covered⟩

/-- The amount is the capacity of the first output, which is spent without a residue: no
fee is paid. -/
theorem fee_unpaid : exactOf (granted [(1, 10), (1, 20)]).outputs = 30 ∧
    ∀ build : Build, ∃ transferred staked,
      (TransferOperation.mk (granted [(1, 10), (1, 20)]) (signer 2).hash (signer 1).hash
        10).transfer build (signer 1) = some (.ok transferred) ∧
      (StakeOperation.mk (granted [(1, 10), (1, 20)]) ⟨7⟩ (signer 1).hash 10).stake
        build (signer 1) = some (.ok staked) ∧
      (granted [(1, 10), (1, 20)]).spentFrom transferred = 10 ∧ exactOf transferred.outputs = 10 ∧
      (granted [(1, 10), (1, 20)]).spentFrom staked = 10 ∧ exactOf staked.outputs = 10 := by
  have transfers : ∀ build : Build, (valueOf ((TransferOperation.mk (granted [(1, 10), (1, 20)])
      (signer 2).hash (signer 1).hash 10).transfer build (signer 1))).any (fun cell =>
        (granted [(1, 10), (1, 20)]).spentFrom cell = 10 ∧ exactOf cell.outputs = 10) = true := by
    rintro (_ | _) <;> decide +kernel
  have stakes : ∀ build : Build, (valueOf ((StakeOperation.mk (granted [(1, 10), (1, 20)]) ⟨7⟩
      (signer 1).hash 10).stake build (signer 1))).any (fun cell =>
        (granted [(1, 10), (1, 20)]).spentFrom cell = 10 ∧ exactOf cell.outputs = 10) = true := by
    rintro (_ | _) <;> decide +kernel
  refine ⟨by decide +kernel, fun build => ?_⟩
  obtain ⟨transferred, returned, first⟩ := (Option.any_eq_true _ _).mp (transfers build)
  obtain ⟨staked, returned', second⟩ := (Option.any_eq_true _ _).mp (stakes build)
  obtain ⟨spent, paid⟩ := of_decide_eq_true first
  obtain ⟨spent', paid'⟩ := of_decide_eq_true second
  exact ⟨transferred, staked, valueOf_eq_some.mp returned, valueOf_eq_some.mp returned', spent,
    paid, spent', paid'⟩

/-- The capacities 7, 17 and 47 of the first owned outputs are not within the fee above 18. -/
theorem fee_paid_purse : ∃ cell,
    (TransferOperation.mk purse (signer 2).hash (signer 1).hash 18).transfer .checked (signer 1) =
      some (.ok cell) ∧ exactOf cell.outputs + FEE.toNat ≤ purse.spentFrom cell := by
  have made : (valueOf ((TransferOperation.mk purse (signer 2).hash (signer 1).hash 18).transfer
      .checked (signer 1))).isSome = true := by decide +kernel
  obtain ⟨cell, found⟩ := Option.isSome_iff_exists.mp made
  have transferred := valueOf_eq_some.mp found
  have ends : ∀ j ≤ 3, (18 : UInt64).toNat ≤
      exactOf ((purse.outputsOfOwner (signer 1).hash).take j) →
      (18 : UInt64).toNat + FEE.toNat ≤
        exactOf ((purse.outputsOfOwner (signer 1).hash).take j) := by decide +kernel
  have length : (purse.outputsOfOwner (signer 1).hash).length = 3 := by decide +kernel
  refine ⟨cell, transferred, ((fee_paid_iff .checked purse 18 (signer 1) nofun).1 _ _ _
    transferred).mpr fun j => ?_⟩
  rcases Nat.le_total j 3 with few | all
  · exact ends j few
  · rw [List.take_of_length_le (length.trans_le all)]
    exact ends 3 le_rfl

/-- A key that owns nothing is told that it has not enough funds. -/
theorem unspendable_not_found :
    (granted [(2, 100)]).outputsOfOwner (signer 1).hash = [] ∧
    (∀ o ∈ (granted [(2, 100)]).outputs, validateOutput o = .ok ()) ∧
    (granted [(2, 100)]).outputs.length ≤ 255 ∧
    ∀ build : Build, consumeFromCell build (granted [(2, 100)]) 10 (signer 1) =
      some (.error .exceedsAvailableFunds) := by
  refine ⟨by decide +kernel, by decide +kernel, by decide +kernel, ?_⟩
  rintro (_ | _) <;> decide +kernel

theorem documented_purse : AsDocumented .checked purse 18 (signer 1) :=
  (documented_iff_owned (by decide +kernel) (by decide +kernel) (by decide +kernel)).mpr
    (by decide +kernel)

/-- A cell with 257 outputs: the last of them has the id of the first, and a build that
checks for overflow panics on the index behind the last but one. -/
theorem ids_collide :
    ∃ c : Cell Digest, c.outputs.length = 257 ∧
      CellId.fromOutput c.hash (UInt8.ofNat 0) = CellId.fromOutput c.hash (UInt8.ofNat 256) ∧
      consumeFromCell .checked c 10 (signer 1) = none := by
  refine ⟨granted (List.replicate 257 (1, 10)), by decide +kernel, rfl, ?_⟩
  have overflow : ownedOutputs .checked (signer 1).hash
      (granted (List.replicate 257 (1, 10))).outputs 0 = none := by decide +kernel
  rw [consumeFromCell, overflow]

theorem output_ids_own_iff_purse :
    (fromOutputs purse.hash purse.outputs).card = 4 ∧
    ∃ r, consumeFromCell .checked purse 18 (signer 1) = some (.ok r) ∧ r.inputs.length = 3 ∧
      ∃ k, r.inputs.map Input.cellId =
        ([0, 2, 3].take k).map fun j => CellId.fromOutput purse.hash (UInt8.ofNat j) := by
  have consumed : (valueOf (consumeFromCell .checked purse 18 (signer 1))).any
      (fun r => r.inputs.length = 3) = true := by decide +kernel
  obtain ⟨r, found, three⟩ := (Option.any_eq_true _ _).mp consumed
  have returned := valueOf_eq_some.mp found
  have outputs : purse.outputs.length = 4 := by decide +kernel
  have positions : purse.positionsOf (signer 1).hash = [0, 2, 3] := by decide +kernel
  have own := (output_ids_own_iff (c := purse) fromOutput_injective).mpr (.inl (by omega))
  obtain ⟨k, _, ids⟩ := own.inputs .checked 18 (signer 1) r returned
  rw [positions] at ids
  exact ⟨own.count.trans outputs, r, returned, of_decide_eq_true three, k, ids⟩

end Sample
end Subzero
