import Subzero.Lib.Codec

/-! Stores of encoded values. A store has the bytes of values under the bytes of their keys;
it holds a map if its entries are the encodings of those of the map. A client that calls a
store sees its answers only, so a store may be replaced by one that answers alike. -/
namespace Subzero

/-- The answers of a machine to a list of calls, and where it ends. -/
def answers {σ ε α : Type} (step : σ → ε → α × σ) : σ → List ε → List α × σ
  | s, [] => ([], s)
  | s, e :: calls =>
    let later := answers step (step s e).2 calls
    ((step s e).1 :: later.1, later.2)

/-- If a relation is kept by every call, and related states answer it alike, then related
states answer all calls alike. -/
theorem answers_simulate {σ τ ε α : Type} {step : σ → ε → α × σ} {spec : τ → ε → α × τ}
    (R : σ → τ → Prop) (allowed : ε → Prop)
    (simulates : ∀ s t e, R s t → allowed e →
      (step s e).1 = (spec t e).1 ∧ R (step s e).2 (spec t e).2)
    {s : σ} {t : τ} (related : R s t) {calls : List ε} (all : ∀ e ∈ calls, allowed e) :
    (answers step s calls).1 = (answers spec t calls).1 ∧
      R (answers step s calls).2 (answers spec t calls).2 := by
  induction calls generalizing s t with
  | nil => exact ⟨rfl, related⟩
  | cons e calls ih =>
    obtain ⟨first, next⟩ := simulates s t e related (all e List.mem_cons_self)
    obtain ⟨rest, last⟩ := ih next fun e' listed => all e' (List.mem_cons_of_mem e listed)
    exact ⟨congrArg₂ List.cons first rest, last⟩

/-- Changes what is under a key, and returns it; `none` is an absent entry. -/
def HashMap.updateAndFetch {K V : Type} [DecidableEq K] (m : HashMap K V) (k : K)
    (f : Option V → Option V) : Option V × HashMap K V :=
  match f (m.lookup k) with
  | some v => (some v, m.insert k v)
  | none => (none, m.erase k)

theorem HashMap.updateAndFetch_fst {K V : Type} [DecidableEq K] (m : HashMap K V) (k : K)
    (f : Option V → Option V) : (m.updateAndFetch k f).1 = f (m.lookup k) := by
  unfold updateAndFetch
  cases f (m.lookup k) <;> rfl

abbrev ByteStore := HashMap (List UInt8) (List UInt8)

namespace Codec
variable {V : Type}

/-- Reads a value that may have bytes after it. -/
def read (c : Codec V) (bytes : List UInt8) : Option V := (c.decode bytes).map Prod.fst

theorem read_encode (c : Codec V) {v : V} (fits : c.fits v) : c.read (c.encode v) = some v := by
  have back := c.decode_encode v [] fits
  rw [List.append_nil] at back
  rw [read, back]
  rfl

/-- A change of a value as a change of its bytes. Bytes that cannot be read are dropped. -/
def lift (c : Codec V) (f : Option V → Option V) : Option (List UInt8) → Option (List UInt8)
  | some bytes => do
    let v ← c.read bytes
    (f (some v)).map c.encode
  | none => (f none).map c.encode

theorem lift_encode (c : Codec V) (f : Option V → Option V) {old : Option V}
    (fits : ∀ v, old = some v → c.fits v) :
    c.lift f (old.map c.encode) = (f old).map c.encode := by
  cases old with
  | none => rfl
  | some v =>
    have back := c.read_encode (fits v rfl)
    simp [lift, back]

end Codec

/-- The entries of a store are those of a map, with keys and values as bytes. -/
structure Holds {K V : Type} [DecidableEq K] (key : K → List UInt8) (c : Codec V) (db : ByteStore)
    (m : HashMap K V) : Prop where
  entries : ∀ k, db.lookup (key k) = (m.lookup k).map c.encode
  keyed : ∀ bytes ∈ db, ∃ k, bytes = key k
  fits : ∀ k v, m.lookup k = some v → c.fits v

namespace Holds
variable {K V : Type} [DecidableEq K] {key : K → List UInt8} {c : Codec V} {db : ByteStore}
  {m : HashMap K V}

theorem empty : Holds key c ∅ ∅ where
  entries _ := rfl
  keyed _ stored := absurd stored Finmap.notMem_empty
  fits _ _ found := by simp at found

theorem contains (holds : Holds key c db m) (k : K) : key k ∈ db ↔ k ∈ m := by
  rw [← Finmap.lookup_isSome, ← Finmap.lookup_isSome, holds.entries, Option.isSome_map]

theorem insert (holds : Holds key c db m) (injective : Function.Injective key) (k : K) {v : V}
    (fits : c.fits v) : Holds key c (Finmap.insert (key k) (c.encode v) db) (m.insert k v) where
  entries k' := by
    rw [HashMap.lookup_insert_ite, HashMap.lookup_insert_ite, holds.entries]
    by_cases same : k' = k
    · rw [if_pos same, if_pos (congrArg key same)]
      rfl
    · rw [if_neg same, if_neg fun bytes => same (injective bytes)]
  keyed bytes stored := by
    rcases Finmap.mem_insert.mp stored with rfl | old
    · exact ⟨k, rfl⟩
    · exact holds.keyed bytes old
  fits k' v' found := by
    rcases HashMap.lookup_insert_some found with ⟨-, rfl⟩ | ⟨-, old⟩
    · exact fits
    · exact holds.fits k' v' old

theorem erase (holds : Holds key c db m) (injective : Function.Injective key) (k : K) :
    Holds key c (Finmap.erase (key k) db) (m.erase k) where
  entries k' := by
    rw [HashMap.lookup_erase_ite, HashMap.lookup_erase_ite, holds.entries]
    by_cases same : k' = k
    · rw [if_pos same, if_pos (congrArg key same)]
      rfl
    · rw [if_neg same, if_neg fun bytes => same (injective bytes)]
  keyed bytes stored := holds.keyed bytes (Finmap.mem_erase.mp stored).2
  fits k' v' found := by
    rw [HashMap.lookup_erase_ite] at found
    split at found
    · cases found
    · exact holds.fits k' v' found

/-- A change of an entry is the change of its bytes. -/
theorem update (holds : Holds key c db m) (injective : Function.Injective key) (k : K)
    {f : Option V → Option V} (fits : ∀ v, f (m.lookup k) = some v → c.fits v) :
    (db.updateAndFetch (key k) (c.lift f)).1 = (m.updateAndFetch k f).1.map c.encode ∧
      Holds key c (db.updateAndFetch (key k) (c.lift f)).2 (m.updateAndFetch k f).2 := by
  have lifted := c.lift_encode f (holds.fits k)
  rw [← holds.entries] at lifted
  unfold HashMap.updateAndFetch
  rw [lifted]
  cases changed : f (m.lookup k) with
  | none => exact ⟨rfl, holds.erase injective k⟩
  | some v => exact ⟨rfl, holds.insert injective k (fits v changed)⟩

end Holds

/-- A machine on bytes answers all allowed calls as a machine on a map does, and holds the
map then. -/
def Refines {K V ε α : Type} [DecidableEq K] (key : K → List UInt8) (c : Codec V)
    (allowed : ε → Prop) (bytes : ByteStore → ε → α × ByteStore)
    (map : HashMap K V → ε → α × HashMap K V) : Prop :=
  ∀ calls, (∀ e ∈ calls, allowed e) →
    (answers bytes ∅ calls).1 = (answers map ∅ calls).1 ∧
      Holds key c (answers bytes ∅ calls).2 (answers map ∅ calls).2

theorem Refines.of_simulates {K V ε α : Type} [DecidableEq K] {key : K → List UInt8}
    {c : Codec V} {allowed : ε → Prop} {bytes : ByteStore → ε → α × ByteStore}
    {map : HashMap K V → ε → α × HashMap K V}
    (simulates : ∀ db m e, Holds key c db m → allowed e →
      (bytes db e).1 = (map m e).1 ∧ Holds key c (bytes db e).2 (map m e).2) :
    Refines key c allowed bytes map :=
  fun _ all => answers_simulate (Holds key c) allowed simulates .empty all

end Subzero
