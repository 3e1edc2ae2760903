import Subzero.Lib.HashMap

/-! Containers with a maximum capacity: once full, the oldest element goes. -/
namespace Subzero

structure BoundedHashSet (T : Type) where
  size : Nat
  elems : Finset T
  queue : List T

structure BoundedHashMap (K V : Type) where
  size : Nat
  elems : HashMap K V
  queue : List K

namespace BoundedHashSet
variable {T : Type} [DecidableEq T]

def new (size : Nat) : BoundedHashSet T := ⟨size, ∅, []⟩

/-- `none` is the panic on an empty queue. -/
def insert (b : BoundedHashSet T) (elem : T) : Option (BoundedHashSet T) :=
  if elem ∈ b.elems then some b
  else
    let elems := Insert.insert elem b.elems
    if b.size ≤ elems.card then
      match b.queue with
      | [] => none
      | e :: queue => some { b with elems := elems.erase e, queue := queue ++ [elem] }
    else some { b with elems := elems, queue := b.queue ++ [elem] }

/-- What an insert does: nothing, an eviction, a panic on nothing to evict, or no eviction. -/
theorem insert_cases (b : BoundedHashSet T) (elem : T) :
    (elem ∈ b.elems ∧ b.insert elem = some b) ∨
    (elem ∉ b.elems ∧ b.size ≤ b.elems.card + 1 ∧ b.queue = [] ∧ b.insert elem = none) ∨
    (elem ∉ b.elems ∧ b.size ≤ b.elems.card + 1 ∧ ∃ e queue, b.queue = e :: queue ∧
      b.insert elem = some ⟨b.size, (Insert.insert elem b.elems).erase e, queue ++ [elem]⟩) ∨
    (elem ∉ b.elems ∧ b.elems.card + 1 < b.size ∧
      b.insert elem = some ⟨b.size, Insert.insert elem b.elems, b.queue ++ [elem]⟩) := by
  by_cases stored : elem ∈ b.elems
  · exact .inl ⟨stored, by rw [insert, if_pos stored]⟩
  · have card := Finset.card_insert_of_notMem stored
    by_cases full : b.size ≤ b.elems.card + 1
    · cases shape : b.queue with
      | nil =>
        exact .inr (.inl ⟨stored, full, rfl, by simp only [insert, stored, card, full, shape,
          if_false, if_true]⟩)
      | cons e queue =>
        exact .inr (.inr (.inl ⟨stored, full, e, queue, rfl, by simp only [insert, stored, card,
          full, shape, if_false, if_true]⟩))
    · exact .inr (.inr (.inr ⟨stored, by omega, by simp only [insert, stored, card, full,
        if_false]⟩))

/-- The fields are private, so a bounded set is what its operations make. -/
inductive Built (size : Nat) : BoundedHashSet T → Prop where
  | new : Built size (.new size)
  | insert {b b' : BoundedHashSet T} (elem : T) : Built size b → b.insert elem = some b' →
      Built size b'

/-- The queue lists the elements. -/
theorem Built.queue {size : Nat} {b : BoundedHashSet T} (built : Built size b) :
    b.size = size ∧ b.queue.Nodup ∧ ∀ e, e ∈ b.queue ↔ e ∈ b.elems := by
  induction built with
  | new => exact ⟨rfl, List.nodup_nil, by simp [BoundedHashSet.new]⟩
  | @insert b b' elem _ inserted ih =>
    obtain ⟨size_eq, nodup, listed⟩ := ih
    rcases b.insert_cases elem with ⟨_, same⟩ | ⟨_, _, _, panics⟩ |
      ⟨absent, _, e, queue, shape, evicts⟩ | ⟨absent, _, adds⟩
    · rw [same] at inserted
      cases inserted
      exact ⟨size_eq, nodup, listed⟩
    · rw [panics] at inserted
      contradiction
    · rw [evicts] at inserted
      cases inserted
      have fresh : elem ∉ e :: queue := fun member => absent ((listed elem).mp (shape ▸ member))
      rw [shape] at nodup listed
      have parts := List.nodup_cons.mp nodup
      rw [List.mem_cons, not_or] at fresh
      refine ⟨size_eq, ?_, fun k => ?_⟩
      · rw [← List.concat_eq_append]
        exact parts.2.concat fresh.2
      · have inside := listed k
        rw [List.mem_cons] at inside
        rw [List.mem_append, List.mem_singleton, Finset.mem_erase, Finset.mem_insert, ← inside]
        by_cases here : k = e
        · subst here
          simp [parts.1, Ne.symm fresh.1]
        · simp [here, or_comm]
    · rw [adds] at inserted
      cases inserted
      have fresh : elem ∉ b.queue := fun member => absent ((listed elem).mp member)
      refine ⟨size_eq, ?_, fun k => ?_⟩
      · rw [← List.concat_eq_append]
        exact nodup.concat fresh
      · rw [List.mem_append, List.mem_singleton, Finset.mem_insert, listed, or_comm]

theorem Built.elems_eq {size : Nat} {b : BoundedHashSet T} (built : Built size b) :
    b.elems = b.queue.toFinset := by
  ext e
  rw [List.mem_toFinset, built.queue.2.2]

theorem Built.card_eq {size : Nat} {b : BoundedHashSet T} (built : Built size b) :
    b.elems.card = b.queue.length := by
  rw [built.elems_eq, List.toFinset_card_of_nodup built.queue.2.1]

/-- With room for two elements the queue of a full set is not empty. -/
theorem Built.insert_some {size : Nat} {b : BoundedHashSet T} (built : Built size b)
    (two : 2 ≤ size) (elem : T) : ∃ b', b.insert elem = some b' ∧ Built size b' := by
  have some : ∃ b', b.insert elem = some b' := by
    rcases b.insert_cases elem with ⟨_, same⟩ | ⟨_, full, empty, _⟩ | ⟨_, _, _, _, _, evicts⟩ |
      ⟨_, _, adds⟩
    · exact ⟨_, same⟩
    · rw [built.queue.1, built.card_eq, empty, List.length_nil] at full
      omega
    · exact ⟨_, evicts⟩
    · exact ⟨_, adds⟩
  obtain ⟨b', inserted⟩ := some
  exact ⟨b', inserted, .insert elem built inserted⟩

end BoundedHashSet

namespace BoundedHashMap
variable {K V : Type} [DecidableEq K]

def new (size : Nat) : BoundedHashMap K V := ⟨size, ∅, []⟩

/-- `none` is the panic on an empty queue. -/
def insert (b : BoundedHashMap K V) (k : K) (v : V) : Option (BoundedHashMap K V) :=
  let elems := b.elems.insert k v
  if k ∈ b.elems then some { b with elems := elems }
  else if b.size ≤ elems.keys.card then
    match b.queue with
    | [] => none
    | e :: queue => some { b with elems := elems.erase e, queue := queue ++ [k] }
  else some { b with elems := elems, queue := b.queue ++ [k] }

end BoundedHashMap
end Subzero
