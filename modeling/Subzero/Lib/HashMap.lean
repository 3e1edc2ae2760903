import Mathlib.Data.Finmap

/-! Hash maps are finite maps and hash sets are finite sets, so neither has an
order of its own. A loop over one runs through a `Listing`, which is arbitrary:
what is proved for every listing holds for every hasher. -/
namespace Subzero

/-- A hash map, with extensional equality. -/
abbrev HashMap (K V : Type) := Finmap (fun _ : K => V)

/-- An iteration order for hash sets: some repetition-free list of the elements. -/
structure Listing (α : Type) where
  list : Finset α → List α
  nodup : ∀ s, (list s).Nodup
  mem : ∀ s a, a ∈ list s ↔ a ∈ s

theorem Listing.length_list {α : Type} [DecidableEq α] (order : Listing α) (s : Finset α) :
    (order.list s).length = s.card := by
  have same : (order.list s).toFinset = s := by
    ext a
    rw [List.mem_toFinset, order.mem]
  rw [← List.toFinset_card_of_nodup (order.nodup s), same]

namespace HashMap
variable {K V : Type} [DecidableEq K]
variable {m : HashMap K V} {k : K} {entries : List (K × V)}

theorem mem_keys_iff : k ∈ m.keys ↔ ∃ v, m.lookup k = some v := by
  rw [Finmap.mem_keys, Finmap.mem_iff]

theorem mem_keys_of_lookup {v : V} (found : m.lookup k = some v) : k ∈ m.keys :=
  mem_keys_iff.mpr ⟨v, found⟩

theorem lookup_insert_ite (m : HashMap K V) (a k : K) (b : V) :
    (m.insert a b).lookup k = if k = a then some b else m.lookup k := by
  by_cases h : k = a
  · subst h; simp
  · simp [Finmap.lookup_insert_of_ne, h]

/-- What is found after an insertion is what was inserted, or an old entry at another key. -/
theorem lookup_insert_some {a k : K} {b v : V} (found : (m.insert a b).lookup k = some v) :
    k = a ∧ v = b ∨ k ≠ a ∧ m.lookup k = some v := by
  rw [lookup_insert_ite] at found
  split at found
  · rename_i same
    exact .inl ⟨same, (Option.some.inj found).symm⟩
  · rename_i other
    exact .inr ⟨other, found⟩

theorem lookup_erase_ite (m : HashMap K V) (a k : K) :
    (m.erase a).lookup k = if k = a then none else m.lookup k := by
  by_cases h : k = a
  · subst h; simp
  · simp [Finmap.lookup_erase_ne, h]

theorem keys_insert (m : HashMap K V) (a : K) (b : V) :
    (m.insert a b).keys = Insert.insert a m.keys := by
  ext k
  rw [Finmap.mem_keys, Finmap.mem_insert, Finset.mem_insert, Finmap.mem_keys]

theorem keys_insert_of_mem {a : K} (known : a ∈ m) (b : V) : (m.insert a b).keys = m.keys := by
  rw [keys_insert, Finset.insert_eq_of_mem (Finmap.mem_keys.mpr known)]

/-- Entries collected into a map: a later entry replaces an earlier one at its key. -/
def collect (entries : List (K × V)) (m : HashMap K V) : HashMap K V :=
  entries.foldl (fun m e => m.insert e.1 e.2) m

theorem mem_collect : k ∈ collect entries m ↔ k ∈ entries.map Prod.fst ∨ k ∈ m := by
  induction entries generalizing m with
  | nil => simp [collect]
  | cons e entries ih =>
    have step : k ∈ collect entries (m.insert e.1 e.2) ↔ _ := ih
    rw [Finmap.mem_insert] at step
    rw [List.map_cons, List.mem_cons]
    exact step.trans (by tauto)

theorem keys_collect : (collect entries ∅).keys = (entries.map Prod.fst).toFinset := by
  ext k
  rw [Finmap.mem_keys, mem_collect, List.mem_toFinset]
  exact or_iff_left Finmap.notMem_empty

/-- At a key the map has the last of the entries for it. -/
theorem lookup_collect_eq (entries : List (K × V)) (m : HashMap K V) (k : K) :
    (collect entries m).lookup k =
      ((entries.filter fun e => e.1 = k).map Prod.snd).getLast?.or (m.lookup k) := by
  induction entries generalizing m with
  | nil => rfl
  | cons e entries ih =>
    have step : (collect entries (m.insert e.1 e.2)).lookup k = _ := ih _
    rw [lookup_insert_ite] at step
    refine step.trans ?_
    rw [List.filter_cons]
    by_cases here : e.1 = k
    · rw [if_pos here.symm, if_pos (decide_eq_true here), List.map_cons, List.getLast?_cons]
      cases ((entries.filter fun e => e.1 = k).map Prod.snd).getLast? <;> rfl
    · rw [if_neg (Ne.symm here), if_neg (by simpa using here)]

/-- The values of collected entries can be mapped before or after. -/
theorem lookup_collect_map {W : Type} (f : V → W) (entries : List (K × V)) (k : K) :
    (collect (entries.map fun e => (e.1, f e.2)) ∅).lookup k =
      ((collect entries ∅).lookup k).map f := by
  rw [lookup_collect_eq, lookup_collect_eq, List.filter_map, List.map_map]
  simp only [Finmap.lookup_empty, Option.or_none]
  rw [← List.getLast?_map, List.map_map]
  rfl

theorem collect_append (entries later : List (K × V)) (m : HashMap K V) :
    collect (entries ++ later) m = collect later (collect entries m) :=
  List.foldl_append ..

/-- At a key of the list the map has one of the entries for it. -/
theorem lookup_collect_of_mem (listed : k ∈ entries.map Prod.fst) :
    ∃ v, (k, v) ∈ entries ∧ (collect entries m).lookup k = some v := by
  obtain ⟨e, member, rfl⟩ := List.mem_map.mp listed
  have here : e.2 ∈ (entries.filter fun x => x.1 = e.1).map Prod.snd :=
    List.mem_map_of_mem (List.mem_filter.mpr ⟨member, decide_eq_true rfl⟩)
  have last := List.getLast?_eq_some_getLast (List.ne_nil_of_mem here)
  obtain ⟨x, kept, same⟩ := List.mem_map.mp (List.mem_of_getLast? last)
  obtain ⟨there, key⟩ := List.mem_filter.mp kept
  refine ⟨x.2, ?_, ?_⟩
  · rw [← of_decide_eq_true key]
    exact there
  · rw [lookup_collect_eq, last, same, Option.some_or]

/-- With one entry for each key the map has the entries. -/
theorem lookup_collect (nodup : (entries.map Prod.fst).Nodup) {v : V} :
    (collect entries ∅).lookup k = some v ↔ (k, v) ∈ entries := by
  suffices general : ∀ m : HashMap K V, (∀ e ∈ entries, e.1 ∉ m) →
      ((collect entries m).lookup k = some v ↔ (k, v) ∈ entries ∨ m.lookup k = some v) by
    rw [general ∅ fun _ _ => Finmap.notMem_empty]
    exact or_iff_left (by simp)
  induction entries with
  | nil => simp [collect]
  | cons e entries ih =>
    intro m fresh
    rw [List.map_cons, List.nodup_cons] at nodup
    have later : ∀ e' ∈ entries, e'.1 ∉ m.insert e.1 e.2 := by
      intro e' listed
      rw [Finmap.mem_insert, not_or]
      refine ⟨fun same => nodup.1 (same ▸ List.mem_map_of_mem listed), ?_⟩
      exact fresh e' (List.mem_cons_of_mem e listed)
    have step : (collect entries (m.insert e.1 e.2)).lookup k = some v ↔ _ := ih nodup.2 _ later
    rw [lookup_insert_ite] at step
    refine step.trans ?_
    have absent : m.lookup e.1 = none := Finmap.lookup_eq_none.mpr (fresh e List.mem_cons_self)
    by_cases here : k = e.1
    · subst here
      simp [absent, Prod.ext_iff, eq_comm, or_comm]
    · simp [here, Prod.ext_iff]

/-- Rewrite the entries at the listed keys, one `get_mut` after the other. The
loop stops at the first absent key and keeps the rewrites made before it. -/
def updateKeys (f : V → V) : List K → HashMap K V → Bool × HashMap K V
  | [], m => (true, m)
  | k :: ks, m =>
    match m.lookup k with
    | none => (false, m)
    | some v => updateKeys f ks (m.insert k (f v))

theorem updateKeys_mem (f : V → V) (ks : List K) (m : HashMap K V) (k : K) :
    k ∈ (updateKeys f ks m).2 ↔ k ∈ m := by
  induction ks generalizing m with
  | nil => rfl
  | cons a ks ih =>
    unfold updateKeys
    split
    · rfl
    · rename_i v hv
      rw [ih, Finmap.mem_insert]
      have present : a ∈ m := Finmap.mem_of_lookup_eq_some hv
      constructor
      · rintro (rfl | h)
        · exact present
        · exact h
      · exact Or.inr

theorem updateKeys_flag (f : V → V) (ks : List K) (m : HashMap K V) :
    (updateKeys f ks m).1 = true ↔ ∀ k ∈ ks, k ∈ m := by
  induction ks generalizing m with
  | nil => simp [updateKeys]
  | cons a ks ih =>
    unfold updateKeys
    split
    · rename_i hv
      have absent : a ∉ m := Finmap.lookup_eq_none.mp hv
      simp [absent]
    · rename_i v hv
      have present : a ∈ m := Finmap.mem_of_lookup_eq_some hv
      rw [ih]
      constructor
      · intro h k hk
        rcases List.mem_cons.mp hk with rfl | hk
        · exact present
        · rcases Finmap.mem_insert.mp (h k hk) with rfl | hm
          · exact present
          · exact hm
      · intro h k hk
        exact Finmap.mem_insert.mpr (Or.inr (h k (List.mem_cons_of_mem a hk)))

/-- The loop is completed if no key is absent. -/
theorem updateKeys_total (f : V → V) {ks : List K} (known : ∀ k ∈ ks, k ∈ m) :
    ∃ m', updateKeys f ks m = (true, m') ∧ ∀ k, k ∈ m' ↔ k ∈ m :=
  ⟨_, Prod.ext ((updateKeys_flag f ks m).mpr known) rfl, updateKeys_mem f ks m⟩

/-- Whatever the loop does, an entry has been rewritten some number of times. -/
theorem updateKeys_lookup_iterate (f : V → V) (ks : List K) (m : HashMap K V) (k : K) :
    ∃ n, (updateKeys f ks m).2.lookup k = (m.lookup k).map (f^[n]) := by
  induction ks generalizing m with
  | nil => exact ⟨0, by simp [updateKeys]⟩
  | cons a ks ih =>
    unfold updateKeys
    split
    · exact ⟨0, by simp⟩
    · rename_i v hv
      obtain ⟨n, hn⟩ := ih (m.insert a (f v))
      rw [hn, lookup_insert_ite]
      by_cases h : k = a
      · subst h
        exact ⟨n + 1, by simp [hv]⟩
      · exact ⟨n, by simp [h]⟩

/-- A completed loop with an idempotent rewrite touches the listed keys once. -/
theorem updateKeys_lookup (f : V → V) (idem : ∀ v, f (f v) = f v) (ks : List K)
    (m : HashMap K V) (done : (updateKeys f ks m).1 = true) (k : K) :
    (updateKeys f ks m).2.lookup k =
      if k ∈ ks then (m.lookup k).map f else m.lookup k := by
  induction ks generalizing m with
  | nil => simp [updateKeys]
  | cons a ks ih =>
    cases hv : m.lookup a with
    | none => simp [updateKeys, hv] at done
    | some v =>
      simp only [updateKeys, hv] at done ⊢
      rw [ih _ done, lookup_insert_ite]
      by_cases h : k = a
      · subst h
        by_cases hk : k ∈ ks <;> simp [hk, hv, idem]
      · simp [h]

end HashMap
end Subzero
