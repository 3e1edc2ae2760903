import Mathlib.Data.List.DropRight
import Subzero.Lib.Outcome
import Subzero.Sleet.Bounded

/-! What the bounded containers hold after a sequence of inserts. The eviction test counts the
element that was just added, so a full container holds one element less than its capacity. -/
namespace Subzero

theorem length_rtake {α : Type*} (l : List α) (n : Nat) : (l.rtake n).length = min n l.length := by
  rw [List.rtake, List.length_drop]
  omega

theorem rtake_of_length_le {α : Type*} {l : List α} {n : Nat} (short : l.length ≤ n) :
    l.rtake n = l := by
  rw [List.rtake, Nat.sub_eq_zero_of_le short, List.drop_zero]

theorem rtake_rtake_concat {α : Type*} (l : List α) (a : α) (n : Nat) :
    (l.rtake n ++ [a]).rtake n = (l ++ [a]).rtake n := by
  cases n with
  | zero => rw [List.rtake_zero, List.rtake_zero]
  | succ n =>
    rw [List.rtake_concat_succ, List.rtake_concat_succ]
    simp only [List.rtake_eq_reverse_take_reverse, List.reverse_reverse, List.take_take]
    rw [Nat.min_eq_left (Nat.le_succ n)]

theorem rtake_pred_eq_iff {α : Type*} (l : List α) {n : Nat} (positive : 1 ≤ n) :
    l.rtake (n - 1) = l.rtake n ↔ l.length < n := by
  constructor
  · intro same
    have lengths := congrArg List.length same
    rw [length_rtake, length_rtake] at lengths
    omega
  · intro short
    rw [rtake_of_length_le (by omega), rtake_of_length_le (by omega)]

namespace BoundedHashSet
variable {T : Type} [DecidableEq T]

/-- `none` as soon as one insert panics. -/
def insertAll (elems : List T) (b : BoundedHashSet T) : Option (BoundedHashSet T) :=
  elems.foldlM insert b

/-- The elements that were not stored just before their insert, a panicking one included. -/
def effective : List T → BoundedHashSet T → List T
  | [], _ => []
  | elem :: elems, b =>
    (if elem ∈ b.elems then [] else [elem]) ++ ((b.insert elem).map (effective elems)).getD []

/-- A container of capacity `size` keeps the newest `size` elements. -/
def Newest (size : Nat) (elems : List T) : Prop :=
  ∃ b, insertAll elems (.new size) = some b ∧
    b.queue = (effective elems (.new size)).rtake size ∧ b.queue.Nodup ∧
    b.elems = b.queue.toFinset

theorem insertAll_cons {elem : T} {elems : List T} {b b' : BoundedHashSet T}
    (inserted : b.insert elem = some b') :
    insertAll (elem :: elems) b = insertAll elems b' := by
  simp only [insertAll, List.foldlM_cons, inserted, Option.bind_eq_bind, Option.bind_some]

theorem effective_cons {elem : T} {elems : List T} {b b' : BoundedHashSet T}
    (inserted : b.insert elem = some b') :
    effective (elem :: elems) b =
      (if elem ∈ b.elems then [] else [elem]) ++ effective elems b' := by
  simp only [effective, inserted, Option.map_some, Option.getD_some]

/-- A new element goes to the back, and the front goes once `size - 1` elements are listed. -/
theorem Built.insert_queue {size : Nat} {b b' : BoundedHashSet T} {elem : T}
    (built : Built size b) (room : b.queue.length ≤ size - 1) (absent : elem ∉ b.elems)
    (inserted : b.insert elem = some b') : b'.queue = (b.queue ++ [elem]).rtake (size - 1) := by
  have size_eq := built.queue.1
  have card := built.card_eq
  rcases b.insert_cases elem with ⟨stored, _⟩ | ⟨_, _, _, panics⟩ |
    ⟨_, full, e, queue, shape, evicts⟩ | ⟨_, less, adds⟩
  · contradiction
  · rw [panics] at inserted
    contradiction
  · rw [evicts] at inserted
    cases inserted
    -- one element too many: the front one
    have excess : (b.queue ++ [elem]).length - (size - 1) = 1 := by
      rw [List.length_append, List.length_singleton]
      rw [shape, List.length_cons] at card room ⊢
      omega
    rw [List.rtake, excess, shape]
    rfl
  · rw [adds] at inserted
    cases inserted
    rw [rtake_of_length_le]
    rw [List.length_append, List.length_singleton]
    omega

/-- One insert: the queue is the last `size - 1` of the elements that were new. -/
theorem Built.insert_newest {size : Nat} {b : BoundedHashSet T} {past : List T}
    (built : Built size b) (two : 2 ≤ size) (newest : b.queue = past.rtake (size - 1)) (elem : T) :
    ∃ b', b.insert elem = some b' ∧ Built size b' ∧
      b'.queue = (past ++ if elem ∈ b.elems then [] else [elem]).rtake (size - 1) := by
  obtain ⟨b', inserted, built'⟩ := built.insert_some two elem
  refine ⟨b', inserted, built', ?_⟩
  by_cases stored : elem ∈ b.elems
  · have same : b' = b := by
      rw [BoundedHashSet.insert, if_pos stored] at inserted
      exact (Option.some.inj inserted).symm
    rw [if_pos stored, List.append_nil, same, newest]
  · have room : b.queue.length ≤ size - 1 := by
      rw [newest, length_rtake]
      omega
    rw [if_neg stored, built.insert_queue room stored inserted, newest, rtake_rtake_concat]

theorem Built.insertAll_newest {size : Nat} {b : BoundedHashSet T} {past : List T}
    (built : Built size b) (two : 2 ≤ size) (newest : b.queue = past.rtake (size - 1))
    (elems : List T) :
    ∃ b', insertAll elems b = some b' ∧ Built size b' ∧
      b'.queue = (past ++ effective elems b).rtake (size - 1) := by
  induction elems generalizing b past with
  | nil => exact ⟨b, rfl, built, by rw [newest, effective, List.append_nil]⟩
  | cons elem elems ih =>
    obtain ⟨middle, inserted, built', queue⟩ := built.insert_newest two newest elem
    obtain ⟨b', rest, kept⟩ := ih built' queue
    refine ⟨b', (insertAll_cons inserted).trans rest, ?_⟩
    rw [effective_cons inserted, ← List.append_assoc]
    exact kept

/-- A container for a single element has nothing to evict for its first one. -/
theorem insert_one (elem : T) : (new 1 : BoundedHashSet T).insert elem = none := by
  simp [BoundedHashSet.insert, new]

theorem newest_iff {size : Nat} (positive : 1 ≤ size) (elems : List T) :
    Newest size elems ↔ (effective elems (.new size)).length < size := by
  rcases Nat.lt_or_ge 1 size with two | one
  · have empty : (new size : BoundedHashSet T).queue = [].rtake (size - 1) :=
      (List.rtake_nil _).symm
    obtain ⟨b, run, built, queue⟩ := Built.new.insertAll_newest two empty elems
    rw [List.nil_append] at queue
    rw [← rtake_pred_eq_iff _ positive, ← queue]
    constructor
    · rintro ⟨b', run', queue', _⟩
      rw [run] at run'
      cases run'
      exact queue'
    · intro same
      exact ⟨b, run, same, built.queue.2.1, built.elems_eq⟩
  · have size_eq : size = 1 := Nat.le_antisymm one positive
    subst size_eq
    cases elems with
    | nil => exact ⟨fun _ => Nat.one_pos, fun _ => ⟨.new 1, rfl, rfl, List.nodup_nil, rfl⟩⟩
    | cons elem elems =>
      constructor
      · rintro ⟨b, run, _⟩
        simp [insertAll, insert_one] at run
      · intro short
        simp [effective, new] at short

end BoundedHashSet

namespace BoundedHashMap
variable {K V : Type} [DecidableEq K]

def insertAll (inserts : List (K × V)) (b : BoundedHashMap K V) : Option (BoundedHashMap K V) :=
  inserts.foldlM (fun b kv => b.insert kv.1 kv.2) b

def effective : List (K × V) → BoundedHashMap K V → List K
  | [], _ => []
  | (k, v) :: inserts, b =>
    (if k ∈ b.elems then [] else [k]) ++ ((b.insert k v).map (effective inserts)).getD []

/-- As for the set, and each key has the value that was inserted last for it. -/
def Newest (size : Nat) (inserts : List (K × V)) : Prop :=
  ∃ b, insertAll inserts (.new size) = some b ∧
    b.queue = (effective inserts (.new size)).rtake size ∧ b.queue.Nodup ∧
    b.elems.keys = b.queue.toFinset ∧
    ∀ k ∈ b.elems, b.elems.lookup k = inserts.reverse.lookup k

/-- A bounded map without its values. -/
def keySet (b : BoundedHashMap K V) : BoundedHashSet K := ⟨b.size, b.elems.keys, b.queue⟩

theorem keySet_insert (b : BoundedHashMap K V) (k : K) (v : V) :
    (b.insert k v).map keySet = b.keySet.insert k := by
  by_cases stored : k ∈ b.elems
  · have member : k ∈ b.elems.keys := Finmap.mem_keys.mpr stored
    have keys := HashMap.keys_insert_of_mem stored v
    simp [BoundedHashMap.insert, BoundedHashSet.insert, keySet, stored, member, keys]
  · have absent : k ∉ b.elems.keys := fun member => stored (Finmap.mem_keys.mp member)
    by_cases full : b.size ≤ (Insert.insert k b.elems.keys).card
    · cases shape : b.queue with
      | nil =>
        simp only [BoundedHashMap.insert, BoundedHashSet.insert, keySet, stored, absent,
          HashMap.keys_insert, full, shape, if_false, if_true, Option.map_none]
      | cons e queue =>
        simp only [BoundedHashMap.insert, BoundedHashSet.insert, keySet, stored, absent,
          HashMap.keys_insert, full, shape, if_false, if_true, Option.map_some, Finmap.keys_erase]
    · simp only [BoundedHashMap.insert, BoundedHashSet.insert, keySet, stored, absent,
        HashMap.keys_insert, full, if_false, Option.map_some]

theorem keySet_insertAll (inserts : List (K × V)) (b : BoundedHashMap K V) :
    (insertAll inserts b).map keySet =
        BoundedHashSet.insertAll (inserts.map Prod.fst) b.keySet ∧
      effective inserts b = BoundedHashSet.effective (inserts.map Prod.fst) b.keySet := by
  induction inserts generalizing b with
  | nil => exact ⟨rfl, rfl⟩
  | cons kv inserts ih =>
    have step := keySet_insert b kv.1 kv.2
    have stored : kv.1 ∈ b.keySet.elems ↔ kv.1 ∈ b.elems := Finmap.mem_keys
    cases inserted : b.insert kv.1 kv.2 with
    | none =>
      rw [inserted] at step
      simp [insertAll, BoundedHashSet.insertAll, effective, BoundedHashSet.effective, inserted,
        ← step, stored]
    | some b' =>
      rw [inserted, Option.map_some] at step
      constructor
      · rw [List.map_cons, BoundedHashSet.insertAll_cons step.symm, ← (ih b').1]
        simp only [insertAll, List.foldlM_cons, inserted, Option.bind_eq_bind, Option.bind_some]
      · rw [List.map_cons, BoundedHashSet.effective_cons step.symm, ← (ih b').2]
        simp only [effective, inserted, Option.map_some, Option.getD_some, stored]

/-- What is stored after an insert is stored as a plain map would have it. -/
theorem lookup_of_insert {b b' : BoundedHashMap K V} {k : K} {v : V}
    (inserted : b.insert k v = some b') {j : K} (stored : j ∈ b'.elems) :
    b'.elems.lookup j = (b.elems.insert k v).lookup j := by
  unfold BoundedHashMap.insert at inserted
  simp only at inserted
  split at inserted
  · cases inserted
    rfl
  · split at inserted
    · split at inserted
      · contradiction
      · rename_i e queue _
        cases inserted
        have other : j ≠ e := (Finmap.mem_erase.mp stored).1
        exact Finmap.lookup_erase_ne other
    · cases inserted
      rfl

theorem lookup_of_insertAll {inserts past : List (K × V)} {b b' : BoundedHashMap K V}
    (valued : ∀ k ∈ b.elems, b.elems.lookup k = past.reverse.lookup k)
    (run : insertAll inserts b = some b') :
    ∀ k ∈ b'.elems, b'.elems.lookup k = (past ++ inserts).reverse.lookup k := by
  induction inserts generalizing b past with
  | nil =>
    cases run
    rw [List.append_nil]
    exact valued
  | cons kv inserts ih =>
    obtain ⟨middle, inserted, rest⟩ := foldlM_cons_some.mp run
    rw [List.append_cons]
    refine ih (fun j stored => ?_) rest
    have plain := lookup_of_insert inserted stored
    rw [plain, List.reverse_append, List.reverse_singleton, List.singleton_append,
      List.lookup_cons]
    by_cases here : j = kv.1
    · rw [here, Finmap.lookup_insert, beq_self_eq_true]
    · rw [Finmap.lookup_insert_of_ne _ here] at plain ⊢
      have before : j ∈ b.elems := by
        rw [← Finmap.lookup_isSome, ← plain, Finmap.lookup_isSome]
        exact stored
      rw [beq_eq_false_iff_ne.mpr here, valued j before]

theorem newest_iff {size : Nat} (positive : 1 ≤ size) (inserts : List (K × V)) :
    Newest size inserts ↔ (effective inserts (.new size)).length < size := by
  obtain ⟨run, same⟩ := keySet_insertAll inserts (.new size)
  have start : (new size : BoundedHashMap K V).keySet = .new size := rfl
  rw [start] at run same
  rw [same, ← BoundedHashSet.newest_iff positive]
  constructor
  · rintro ⟨b, ran, queue, nodup, keys, _⟩
    rw [ran, Option.map_some] at run
    exact ⟨b.keySet, run.symm, same ▸ queue, nodup, keys⟩
  · rintro ⟨b, ran, queue, nodup, keys⟩
    rw [ran, Option.map_eq_some_iff] at run
    obtain ⟨b', ran', rfl⟩ := run
    refine ⟨b', ran', same ▸ queue, nodup, keys, ?_⟩
    have empty : ∀ k ∈ (new size : BoundedHashMap K V).elems,
        (new size : BoundedHashMap K V).elems.lookup k = ([] : List (K × V)).reverse.lookup k :=
      fun k stored => absurd stored Finmap.notMem_empty
    have valued := lookup_of_insertAll empty ran'
    rwa [List.nil_append] at valued

end BoundedHashMap

section Capacity
variable {T K V : Type} [DecidableEq T] [DecidableEq K]

theorem newest_kept_iff (size : Nat) (positive : 1 ≤ size) :
    (∀ elems : List T, BoundedHashSet.Newest size elems ↔
      (BoundedHashSet.effective elems (.new size)).length < size) ∧
    ∀ inserts : List (K × V), BoundedHashMap.Newest size inserts ↔
      (BoundedHashMap.effective inserts (.new size)).length < size :=
  ⟨BoundedHashSet.newest_iff positive, BoundedHashMap.newest_iff positive⟩

end Capacity

/-- Two elements in a container for three, one of them inserted again with another value. -/
theorem newest_kept_two :
    1 ≤ 3 ∧ BoundedHashSet.Newest 3 [1, 2, 1] ∧
      BoundedHashMap.Newest 3 [(1, 10), (2, 20), (1, 30)] := by
  have kept := newest_kept_iff (T := Nat) (K := Nat) (V := Nat) 3 (by decide)
  exact ⟨by decide, (kept.1 _).mpr (by decide), (kept.2 _).mpr (by decide)⟩

/-- The third element of a container for three evicts the first; a container for one panics. -/
theorem newest_not_kept :
    (BoundedHashSet.effective [1, 2, 3] (.new 3)).rtake 3 = [1, 2, 3] ∧
      (BoundedHashSet.insertAll [1, 2, 3] (.new 3)).map (fun b => (b.elems, b.queue)) =
        some ({2, 3}, [2, 3]) ∧
      (BoundedHashMap.insertAll [(1, 1), (2, 2), (3, 3)] (.new 3)).map
        (fun b => (b.elems.keys, b.queue)) = some ({2, 3}, [2, 3]) ∧
      (BoundedHashSet.insertAll [1] (.new 1)).isNone ∧
      (BoundedHashMap.insertAll [(1, 1)] (.new 1)).isNone := by
  decide

end Subzero
