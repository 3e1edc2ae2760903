import Mathlib.Data.List.Sort
import Subzero.Lib.HashMap

/-! Binary formats. A codec writes a value as bytes and reads one back off the front of
its input, so formats compose by writing one value after the other. The values that fit
are those that are read back. -/
namespace Subzero

structure Codec (α : Type) where
  encode : α → List UInt8
  decode : List UInt8 → Option (α × List UInt8)
  fits : α → Prop
  decode_encode : ∀ a rest, fits a → decode (encode a ++ rest) = some (a, rest)

/-- The elements of a set by a comparison, whatever order they were listed in. -/
def Listing.sorted {α : Type} (order : Listing α) (cmp : α → α → Ordering) (s : Finset α) :
    List α :=
  (order.list s).mergeSort fun a b => (cmp a b).isLE

section Sorted
variable {α : Type} (cmp : α → α → Ordering)

theorem Listing.mem_sorted (order : Listing α) (s : Finset α) (a : α) :
    a ∈ order.sorted cmp s ↔ a ∈ s := by
  rw [Listing.sorted, List.mem_mergeSort, order.mem]

/-- Elements that compare as equal are equal, so a set has one sorted list. -/
theorem Listing.sorted_unique [Std.TransCmp cmp] [Std.LawfulEqCmp cmp]
    (order order' : Listing α) (s : Finset α) : order.sorted cmp s = order'.sorted cmp s := by
  have ascends : ∀ list : List α,
      (list.mergeSort fun a b => (cmp a b).isLE).Pairwise fun a b => (cmp a b).isLE := by
    intro list
    apply List.pairwise_mergeSort
    · intro a b c below above
      exact Std.TransCmp.isLE_trans below above
    · intro a b
      have swapped : cmp b a = (cmp a b).swap := Std.OrientedCmp.eq_swap
      rw [swapped]
      cases cmp a b <;> rfl
  have same : (order.list s).Perm (order'.list s) := by
    rw [List.perm_ext_iff_of_nodup (order.nodup s) (order'.nodup s)]
    intro a
    rw [order.mem, order'.mem]
  have sorts : (order.sorted cmp s).Perm (order'.sorted cmp s) :=
    (List.mergeSort_perm _ _).trans (same.trans (List.mergeSort_perm _ _).symm)
  apply List.Perm.eq_of_pairwise _ (ascends _) (ascends _) sorts
  intro a b _ _ below above
  exact Std.LawfulEqCmp.eq_of_compare (Std.OrientedCmp.isLE_antisymm below above)

variable [DecidableEq α]

theorem Listing.sorted_toFinset (order : Listing α) (s : Finset α) :
    (order.sorted cmp s).toFinset = s := by
  ext a
  rw [List.mem_toFinset, order.mem_sorted]

theorem Listing.length_sorted (order : Listing α) (s : Finset α) :
    (order.sorted cmp s).length = s.card := by
  rw [Listing.sorted, List.length_mergeSort, order.length_list]

end Sorted

/-- The low bytes of a number, the least significant one first. -/
def littleEndian : Nat → Nat → List UInt8
  | 0, _ => []
  | width + 1, n => UInt8.ofNat n :: littleEndian width (n / 256)

def ofLittleEndian : List UInt8 → Nat
  | [] => 0
  | byte :: bytes => byte.toNat + 256 * ofLittleEndian bytes

@[simp] theorem length_littleEndian (width n : Nat) : (littleEndian width n).length = width := by
  induction width generalizing n with
  | zero => rfl
  | succ width ih => simp [littleEndian, ih]

theorem ofLittleEndian_littleEndian {width n : Nat} (fits : n < 256 ^ width) :
    ofLittleEndian (littleEndian width n) = n := by
  induction width generalizing n with
  | zero =>
    obtain rfl : n = 0 := by simpa using fits
    rfl
  | succ width ih =>
    have shorter : n / 256 < 256 ^ width := by
      apply Nat.div_lt_of_lt_mul
      rw [Nat.mul_comm, ← Nat.pow_succ]
      exact fits
    have low : (UInt8.ofNat n).toNat = n % 256 := by simp
    rw [littleEndian, ofLittleEndian, ih shorter, low]
    omega

namespace Codec
variable {α β : Type}

/-- Values that fit are told apart by their encodings. -/
theorem encode_inj (c : Codec α) {a b : α} (first : c.fits a) (second : c.fits b) :
    c.encode a = c.encode b ↔ a = b := by
  constructor
  · intro same
    have read := c.decode_encode a [] first
    rw [same, c.decode_encode b [] second] at read
    simpa using read.symm
  · rintro rfl
    rfl

/-- A fixed number of bytes that pass a check. -/
def bytes (width : Nat) (valid : List UInt8 → Bool) : Codec (List UInt8) where
  encode block := block
  decode input :=
    if width ≤ input.length ∧ valid (input.take width) then
      some (input.take width, input.drop width)
    else none
  fits block := block.length = width ∧ valid block
  decode_encode := by
    rintro block rest ⟨rfl, passes⟩
    simp [passes]

/-- An unsigned number of a fixed width. -/
def uint (width : Nat) : Codec Nat where
  encode n := littleEndian width n
  decode input :=
    if width ≤ input.length then
      some (ofLittleEndian (input.take width), input.drop width)
    else none
  fits n := n < 256 ^ width
  decode_encode := by
    intro n rest fits
    have size := length_littleEndian width n
    rw [List.take_left' size, List.drop_left' size, ofLittleEndian_littleEndian fits,
      if_pos (by simp)]

/-- One value, then the other. -/
def pair (c : Codec α) (d : Codec β) : Codec (α × β) where
  encode p := c.encode p.1 ++ d.encode p.2
  decode input := do
    let a ← c.decode input
    let b ← d.decode a.2
    some ((a.1, b.1), b.2)
  fits p := c.fits p.1 ∧ d.fits p.2
  decode_encode := by
    intro p rest fits
    have first := c.decode_encode p.1 (d.encode p.2 ++ rest) fits.1
    simp [List.append_assoc, first, d.decode_encode p.2 rest fits.2]

/-- A value by its representation, which may have other values of no meaning. -/
def via (c : Codec α) (into : β → α) (back : α → Option β)
    (law : ∀ b, back (into b) = some b) : Codec β where
  encode b := c.encode (into b)
  decode input := do
    let a ← c.decode input
    let b ← back a.1
    some (b, a.2)
  fits b := c.fits (into b)
  decode_encode := by
    intro b rest fits
    simp [c.decode_encode _ rest fits, law b]

/-- A value after a byte that tells whether there is one. -/
def option (c : Codec α) : Codec (Option α) where
  encode
    | none => [0]
    | some a => 1 :: c.encode a
  decode
    | 0 :: input => some (none, input)
    | 1 :: input => do
      let a ← c.decode input
      some (some a.1, a.2)
    | _ => none
  fits o := ∀ a ∈ o, c.fits a
  decode_encode := by
    rintro (_ | a) rest fits
    · rfl
    · simp [c.decode_encode a rest (fits a rfl)]

def decodeMany (c : Codec α) : Nat → List UInt8 → Option (List α × List UInt8)
  | 0, input => some ([], input)
  | count + 1, input => do
    let a ← c.decode input
    let more ← decodeMany c count a.2
    some (a.1 :: more.1, more.2)

theorem decodeMany_encode (c : Codec α) {list : List α} (fits : ∀ a ∈ list, c.fits a)
    (rest : List UInt8) :
    c.decodeMany list.length (list.flatMap c.encode ++ rest) = some (list, rest) := by
  induction list with
  | nil => rfl
  | cons a list ih =>
    have first := c.decode_encode a (list.flatMap c.encode ++ rest) (fits a List.mem_cons_self)
    have others := ih fun b member => fits b (List.mem_cons_of_mem a member)
    simp [decodeMany, List.append_assoc, first, others]

/-- A list after the number of its elements. -/
def counted (width : Nat) (c : Codec α) : Codec (List α) where
  encode list := (uint width).encode list.length ++ list.flatMap c.encode
  decode input := do
    let count ← (uint width).decode input
    c.decodeMany count.1 count.2
  fits list := list.length < 256 ^ width ∧ ∀ a ∈ list, c.fits a
  decode_encode := by
    intro list rest fits
    have count := (uint width).decode_encode list.length (list.flatMap c.encode ++ rest) fits.1
    simp [List.append_assoc, count, c.decodeMany_encode fits.2]

/-- A set as the sorted list of its elements, read back with the repetitions dropped. -/
def sortedSet [DecidableEq α] (width : Nat) (c : Codec α) (cmp : α → α → Ordering)
    (order : Listing α) : Codec (Finset α) :=
  (c.counted width).via (order.sorted cmp) (fun list => some list.toFinset)
    fun s => congrArg some (order.sorted_toFinset cmp s)

theorem sortedSet_fits [DecidableEq α] {width : Nat} {c : Codec α} {cmp : α → α → Ordering}
    {order : Listing α} {s : Finset α} :
    (c.sortedSet width cmp order).fits s ↔ s.card < 256 ^ width ∧ ∀ a ∈ s, c.fits a := by
  simp only [sortedSet, via, counted, Listing.length_sorted, Listing.mem_sorted]

end Codec
end Subzero
