import Mathlib.Data.List.Sort
import Mathlib.Data.Nat.Pairing
import Subzero.Cell

/-! An ideal hash: digests are natural numbers and hashing is injective. With it
and with iteration in ascending order, every definition of the model computes. -/
namespace Subzero

section Sorted
variable {α : Type} (key : α → Nat)

def below (a b : α) : Prop := key a ≤ key b

instance : DecidableRel (below key) := fun a b => inferInstanceAs (Decidable (key a ≤ key b))

/-- The elements of a set in ascending order of their keys. -/
def sorted (injective : Function.Injective key) (s : Finset α) : List α :=
  Quot.lift (fun l : List α => l.insertionSort (below key)) (by
    intro l l' h
    have trans : IsTrans α (below key) := ⟨fun _ _ _ h h' => Nat.le_trans h h'⟩
    have total : Std.Total (below key) := ⟨fun a b => Nat.le_total (key a) (key b)⟩
    have perm := ((List.perm_insertionSort (below key) l).trans h).trans
      (List.perm_insertionSort (below key) l').symm
    refine List.Perm.eq_of_pairwise ?_ (List.pairwise_insertionSort _ _)
      (List.pairwise_insertionSort _ _) perm
    intro a b _ _ hab hba
    exact injective (Nat.le_antisymm hab hba)) s.val

def ascending (injective : Function.Injective key) : Listing α where
  list := sorted key injective
  nodup := by
    intro ⟨s, nodup⟩
    induction s using Quot.inductionOn with
    | h l => exact (List.perm_insertionSort (below key) l).nodup_iff.mpr nodup
  mem := by
    intro ⟨s, nodup⟩ a
    induction s using Quot.inductionOn with
    | h l => exact (List.perm_insertionSort (below key) l).mem_iff

end Sorted

structure Digest where
  value : Nat
  deriving DecidableEq

theorem Digest.value_injective : Function.Injective Digest.value := by
  rintro ⟨a⟩ ⟨b⟩ h
  exact congrArg Digest.mk h

def encodeList : List Nat → Nat
  | [] => 0
  | a :: l => Nat.pair a (encodeList l) + 1

theorem encodeList_injective : Function.Injective encodeList := by
  intro l l' h
  induction l generalizing l' with
  | nil =>
    cases l' with
    | nil => rfl
    | cons b l' => simp [encodeList] at h
  | cons a l ih =>
    cases l' with
    | nil => simp [encodeList] at h
    | cons b l' =>
      simp only [encodeList, Nat.add_right_cancel_iff, Nat.pair_eq_pair] at h
      rw [h.1, ih h.2]

/-- A set as the list of the keys of its elements. -/
def setKey {α : Type} (key : α → Nat) (injective : Function.Injective key) (s : Finset α) : Nat :=
  encodeList ((sorted key injective s).map key)

theorem setKey_injective {α : Type} [DecidableEq α] (key : α → Nat)
    (injective : Function.Injective key) : Function.Injective (setKey key injective) := by
  intro a b same
  have lists := List.map_injective_iff.mpr injective (encodeList_injective same)
  let order := ascending key injective
  ext x
  have lists : order.list a = order.list b := lists
  rw [← order.mem a x, lists, order.mem]

/-- The bytes as digits, so that the number grows with their count only. -/
def encodeBytes : List UInt8 → Nat
  | [] => 0
  | byte :: bytes => encodeBytes bytes * 257 + (byte.toNat + 1)

def encodeInput (i : Input Digest) : Nat :=
  Nat.pair (Nat.pair i.outputIndex.cellHash.value i.outputIndex.index.toNat)
    (Nat.pair (encodeBytes i.unlock.publicKey) (encodeBytes i.unlock.signature))

def encodeType : CellType → Nat
  | .coinbase => 0
  | .transfer => 1
  | .stake => 2

def encodeOutput (o : Output Digest) : Nat :=
  Nat.pair (Nat.pair o.capacity.toNat (encodeType o.cellType))
    (Nat.pair (encodeBytes o.data) o.lock.value)

theorem encodeBytes_injective : Function.Injective encodeBytes := by
  intro l l' h
  induction l generalizing l' with
  | nil =>
    cases l' with
    | nil => rfl
    | cons b l' =>
      simp only [encodeBytes] at h
      omega
  | cons a l ih =>
    cases l' with
    | nil =>
      simp only [encodeBytes] at h
      omega
    | cons b l' =>
      simp only [encodeBytes] at h
      have small : a.toNat < 256 := a.toNat_lt
      have small' : b.toNat < 256 := b.toNat_lt
      have rest : l = l' := ih (by omega)
      have first : a = b := UInt8.toNat_inj.mp (by omega)
      rw [first, rest]

theorem encodeInput_injective : Function.Injective encodeInput := by
  rintro ⟨⟨⟨h⟩, i⟩, ⟨k, s⟩⟩ ⟨⟨⟨h'⟩, i'⟩, ⟨k', s'⟩⟩ eq
  simp only [encodeInput, Nat.pair_eq_pair] at eq
  obtain ⟨⟨rfl, hi⟩, hk, hs⟩ := eq
  rw [UInt8.toNat_inj.mp hi, encodeBytes_injective hk, encodeBytes_injective hs]

theorem encodeOutput_injective : Function.Injective encodeOutput := by
  rintro ⟨c, t, d, ⟨l⟩⟩ ⟨c', t', d', ⟨l'⟩⟩ eq
  simp only [encodeOutput, Nat.pair_eq_pair] at eq
  obtain ⟨⟨hc, ht⟩, hd, rfl⟩ := eq
  have type : t = t' := by cases t <;> cases t' <;> simp [encodeType] at ht <;> rfl
  rw [UInt64.toNat_inj.mp hc, encodeBytes_injective hd, type]

instance : Blake3 Digest where
  ofCell c := ⟨Nat.pair
    (encodeList ((sorted encodeInput encodeInput_injective c.inputs).map encodeInput))
    (encodeList (c.outputs.map encodeOutput))⟩
  ofOutput h i := ⟨Nat.pair h.value i.toNat⟩

theorem hash_injective : Function.Injective (Cell.hash : Cell Digest → Digest) := by
  rintro ⟨inputs, outputs⟩ ⟨inputs', outputs'⟩ eq
  have pair := congrArg Digest.value eq
  simp only [Cell.hash, Blake3.ofCell, Nat.pair_eq_pair] at pair
  have ins := List.map_injective_iff.mpr encodeInput_injective (encodeList_injective pair.1)
  have outs := List.map_injective_iff.mpr encodeOutput_injective (encodeList_injective pair.2)
  have same : inputs = inputs' := by
    ext i
    let order := ascending encodeInput encodeInput_injective
    have lists : order.list inputs = order.list inputs' := ins
    rw [← order.mem inputs i, lists, order.mem]
  rw [same, outs]

theorem fromOutput_hash (h h' : Digest) (i j : UInt8)
    (same : CellId.fromOutput h i = CellId.fromOutput h' j) : h = h' := by
  have pair := congrArg (fun id : CellId Digest => id.bytes.value) same
  simp only [CellId.fromOutput, Blake3.ofOutput, Nat.pair_eq_pair] at pair
  exact Digest.value_injective pair.1

theorem lt_encodeList {a : Nat} {l : List Nat} (member : a ∈ l) : a < encodeList l := by
  induction l with
  | nil => cases member
  | cons b l ih =>
    rw [encodeList, Nat.lt_succ_iff]
    rcases List.mem_cons.mp member with rfl | later
    · exact Nat.left_le_pair _ _
    · exact (Nat.le_of_lt (ih later)).trans (Nat.right_le_pair _ _)

/-- The encoding of a cell is larger than the hashes in it. -/
theorem ranked_digest : Ranked Digest := by
  refine ⟨Digest.value, fun c i member => ?_⟩
  have listed : i ∈ sorted encodeInput encodeInput_injective c.inputs :=
    ((ascending encodeInput encodeInput_injective).mem c.inputs i).mpr member
  calc i.outputIndex.cellHash.value
      ≤ Nat.pair i.outputIndex.cellHash.value i.outputIndex.index.toNat := Nat.left_le_pair _ _
    _ ≤ encodeInput i := Nat.left_le_pair _ _
    _ < encodeList ((sorted encodeInput encodeInput_injective c.inputs).map encodeInput) :=
        lt_encodeList (List.mem_map_of_mem listed)
    _ ≤ c.hash.value := Nat.left_le_pair _ _

def CellId.key (id : CellId Digest) : Nat := id.bytes.value

theorem CellId.key_injective : Function.Injective CellId.key := by
  rintro ⟨a⟩ ⟨b⟩ h
  exact congrArg CellId.mk (Digest.value_injective h)

def Id.key (id : Id) : Nat := id.bytes.toNat

theorem Id.key_injective : Function.Injective Id.key := by
  rintro ⟨a⟩ ⟨b⟩ h
  exact congrArg Id.mk (BitVec.eq_of_toNat_eq h)

def ascendingOrder : HashOrder Digest where
  cellIds := ascending CellId.key CellId.key_injective
  hashes := ascending Digest.value Digest.value_injective
  ids := ascending Id.key Id.key_injective

/-- A coinbase cell with one output. -/
def mint (capacity : UInt64) : Cell Digest := ⟨∅, [⟨capacity, .coinbase, [], ⟨0⟩⟩]⟩

/-- A transfer that spends the first outputs of some cells. -/
def pay (spent : List (Cell Digest)) (capacity : UInt64) : Cell Digest :=
  ⟨(spent.map fun c => ⟨⟨c.hash, 0⟩, ⟨[], []⟩⟩).toFinset, [⟨capacity, .transfer, [], ⟨0⟩⟩]⟩

/-- The id of the first output of a cell. -/
def coin (c : Cell Digest) : CellId Digest := CellId.fromOutput c.hash 0

end Subzero
