import Subzero.Graph.Insertion
import Subzero.Lib.Run

/-! The calls of the conflict graph as one step function, what an insertion and an
acceptance do, and the consistency of every graph that calls can build. -/
namespace Subzero.ConflictGraph
variable {H : Type} [DecidableEq H] [Blake3 H]
variable {c c' : ConflictGraph H} {hash : H} {set : ConflictSet H}

inductive Call (H : Type) where
  | append (ids : Finset (CellId H))
  | insertCell (cell : Cell H)
  | acceptCell (cell : Cell H)
  | removeCell (hash : H)
  | updateConflictSet (hash : H) (d1 d2 : Nat)
  | resetCount (hash : H)

def call (c : ConflictGraph H) :
    HashOrder H × Call H → Outcome (GraphError H) (ConflictGraph H) Unit
  | (order, .append ids) => .ok () (c.append order ids)
  | (order, .insertCell cell) => c.insertCell order cell
  | (order, .acceptCell cell) => (c.acceptCell order cell).bind fun _ c => .ok () c
  | (order, .removeCell hash) => c.removeCell order hash
  | (_, .updateConflictSet hash d1 d2) => c.updateConflictSet hash d1 d2
  | (_, .resetCount hash) => c.resetCount hash

/-- A call that may fail; an error keeps what was done before it. -/
def callAny (c : ConflictGraph H) (x : HashOrder H × Call H) : Option (ConflictGraph H) :=
  (c.call x).state?

/-- A successful call. -/
def callOk (c : ConflictGraph H) (x : HashOrder H × Call H) : Option (ConflictGraph H) :=
  (c.call x).unwrap.map Prod.snd

theorem callOk_any {x : HashOrder H × Call H} (h : c.callOk x = some c') :
    c.callAny x = some c' := by
  unfold callOk at h
  unfold callAny
  cases result : c.call x <;> simp_all [Outcome.unwrap]

/-- Only `pref`, `last` and `cnt` differ, and the status of vertices. -/
structure Retuned (c c' : ConflictGraph H) : Prop where
  cells : c'.cells = c.cells
  ids : ∀ id, id ∈ c'.vertices ↔ id ∈ c.vertices
  spenders : ∀ id, spendersAt c'.vertices id = spendersAt c.vertices id
  sets : ∀ k, (c'.cs.lookup k).map ConflictSet.conflicts = (c.cs.lookup k).map ConflictSet.conflicts

omit [Blake3 H] in
theorem Retuned.refl (c : ConflictGraph H) : Retuned c c :=
  ⟨rfl, fun _ => Iff.rfl, fun _ => rfl, fun _ => rfl⟩

omit [Blake3 H] in
theorem Retuned.trans {c₁ c₂ c₃ : ConflictGraph H} (first : Retuned c₁ c₂)
    (second : Retuned c₂ c₃) : Retuned c₁ c₃ :=
  ⟨second.cells.trans first.cells, fun id => (second.ids id).trans (first.ids id),
    fun id => (second.spenders id).trans (first.spenders id),
    fun k => (second.sets k).trans (first.sets k)⟩

omit [Blake3 H] in
theorem Retuned.below (same : Retuned c c') {h : H} {set' : ConflictSet H}
    (found : c'.cs.lookup h = some set') :
    ∃ set, c.cs.lookup h = some set ∧ set'.conflicts = set.conflicts := by
  have eq := same.sets h
  rw [found, Option.map_some, eq_comm, Option.map_eq_some_iff] at eq
  obtain ⟨set, known, eq⟩ := eq
  exact ⟨set, known, eq.symm⟩

omit [Blake3 H] in
theorem Retuned.mem_cs (same : Retuned c c') {h : H} : h ∈ c'.cs ↔ h ∈ c.cs := by
  have eq := congrArg Option.isSome (same.sets h)
  rw [Option.isSome_map, Option.isSome_map] at eq
  rw [← Finmap.lookup_isSome, eq, Finmap.lookup_isSome]

theorem Retuned.consistent (same : Retuned c c') (ok : Consistent c) : Consistent c' := by
  have above : ∀ {h set}, c.cs.lookup h = some set →
      ∃ set', c'.cs.lookup h = some set' ∧ set'.conflicts = set.conflicts := by
    intro h set known
    have eq := same.sets h
    rw [known, Option.map_some, Option.map_eq_some_iff] at eq
    exact eq
  constructor
  · intro h cell found
    exact ok.hashed h cell (same.cells ▸ found)
  · intro id h member
    rw [same.spenders] at member
    rw [same.cells]
    exact ok.spender id h member
  · intro h set' found
    obtain ⟨set, known, _⟩ := same.below found
    obtain ⟨cell, stored, ids⟩ := ok.stored h set known
    exact ⟨cell, same.cells ▸ stored, fun id hid => (same.ids id).mpr (ids id hid)⟩
  · intro h set' found
    obtain ⟨set, known, eq⟩ := same.below found
    exact eq ▸ ok.own h set known
  · intro h set' found k member
    obtain ⟨set, known, eq⟩ := same.below found
    obtain ⟨other, there, back⟩ := ok.symm h set known k (eq ▸ member)
    obtain ⟨other', there', eq'⟩ := above there
    exact ⟨other', there', eq'.symm ▸ back⟩

omit [Blake3 H] in
theorem mutateSet_cases {f : ConflictSet H → ConflictSet H}
    (left : (c.mutateSet hash f).state? = some c') :
    (c' = c ∧ c.cs.lookup hash = none) ∨
      ∃ set, c.cs.lookup hash = some set ∧ c' = { c with cs := c.cs.insert hash (f set) } ∧
        c.mutateSet hash f = .ok () c' := by
  unfold mutateSet at left ⊢
  cases found : c.cs.lookup hash with
  | none =>
    left
    rw [found] at left
    split at left <;> exact ⟨(Option.some.inj left).symm, rfl⟩
  | some set =>
    right
    have member : hash ∈ c.cs.keys := HashMap.mem_keys_of_lookup found
    have size : 0 < c.cs.keys.card := Finset.card_pos.mpr ⟨hash, member⟩
    rw [if_pos size, found] at left
    have eq := Option.some.inj left
    exact ⟨set, rfl, eq.symm, by rw [if_pos size, ← eq]⟩

omit [Blake3 H] in
theorem mutateSet_ok {f : ConflictSet H → ConflictSet H} (done : c.mutateSet hash f = .ok () c') :
    ∃ set, c.cs.lookup hash = some set ∧
      c' = { c with cs := c.cs.insert hash (f set) } := by
  rcases mutateSet_cases (congrArg Outcome.state? done) with ⟨_, unknown⟩ | ⟨set, known, eq, _⟩
  · unfold mutateSet at done
    rw [unknown] at done
    split at done <;> cases done
  · exact ⟨set, known, eq⟩

omit [Blake3 H] in
theorem mutateSet_none {f : ConflictSet H → ConflictSet H} (unknown : c.cs.lookup hash = none) :
    (c.mutateSet hash f).unwrap.map Prod.snd = none := by
  unfold mutateSet
  rw [unknown]
  split <;> rfl

omit [Blake3 H] in
theorem mutateSet_retuned {set set' : ConflictSet H} (known : c.cs.lookup hash = some set)
    (same : set'.conflicts = set.conflicts) : Retuned c { c with cs := c.cs.insert hash set' } := by
  refine ⟨rfl, fun _ => Iff.rfl, fun _ => rfl, fun k => ?_⟩
  rw [HashMap.lookup_insert_ite]
  by_cases hk : k = hash
  · subst hk; simp [known, same]
  · simp [hk]

/-- The conflict set that an accepted cell is left with. -/
def acceptedSet (hash : H) (set : ConflictSet H) : ConflictSet H :=
  { ConflictSet.new hash with cnt := set.cnt }

/-- The conflicts of an accepted cell are cut, and its own set starts over with
the confidence it had. -/
structure Settled (c : ConflictGraph H) (hash : H) (set : ConflictSet H) (c' : ConflictGraph H) :
    Prop where
  known : c.cs.lookup hash = some set
  cut : ∃ c₁, Cut (set.conflicts.erase hash) c c₁ ∧
    c' = { c₁ with cs := c₁.cs.insert hash (acceptedSet hash set) }

omit [Blake3 H] in
theorem Settled.cs (settled : Settled c hash set c') (k : H) :
    c'.cs.lookup k =
      if k = hash then some (acceptedSet hash set)
      else if k ∈ set.conflicts then none
      else (c.cs.lookup k).map (.without (set.conflicts.erase hash)) := by
  obtain ⟨c₁, cut, rfl⟩ := settled.cut
  rw [HashMap.lookup_insert_ite, cut.cs]
  by_cases hk : k = hash <;> simp [hk]

theorem Settled.retuned (ok : Consistent c) (settled : Settled c hash set c') :
    ∃ c₁, Cut (set.conflicts.erase hash) c c₁ ∧ Retuned c₁ c' := by
  obtain ⟨c₁, cut, rfl⟩ := settled.cut
  have own := ok.own hash set settled.known
  have kept : c₁.cs.lookup hash = some (set.without (set.conflicts.erase hash)) := by
    simp [cut.cs, settled.known]
  refine ⟨c₁, cut, mutateSet_retuned kept ?_⟩
  ext k
  by_cases hk : k = hash
  · subst hk
    simp [acceptedSet, ConflictSet.new, ConflictSet.without, own]
  · simp [acceptedSet, ConflictSet.new, ConflictSet.without, hk]

theorem Settled.consistent (ok : Consistent c) (settled : Settled c hash set c') :
    Consistent c' := by
  obtain ⟨c₁, cut, same⟩ := settled.retuned ok
  exact same.consistent (cut.consistent ok)

omit [Blake3 H] in
/-- The conflict graph that is left: the conflicts are settled, then the rest is cut. -/
theorem Settled.cut_sets {c c₁ c₂ : ConflictGraph H} {t : H} {W : Finset H}
    (settled : Settled c t set c₁) (cut : Cut W c₁ c₂) (own : t ∈ set.conflicts) {x : H}
    (outside : x ∉ W) (kept : x ∉ set.conflicts.erase t) :
    (x ∈ c₂.cs ↔ x ∈ c.cs) ∧ ∀ old new, c.cs.lookup x = some old → c₂.cs.lookup x = some new →
      ∀ y, y ∉ W → y ∉ set.conflicts.erase t → (y ∈ new.conflicts ↔ y ∈ old.conflicts) := by
  rw [Finset.mem_erase] at kept
  have lookup := cut.cs x
  rw [if_neg outside, settled.cs x] at lookup
  by_cases hx : x = t
  · subst hx
    rw [if_pos rfl, Option.map_some] at lookup
    refine ⟨⟨fun _ => Finmap.mem_of_lookup_eq_some settled.known,
      fun _ => Finmap.mem_of_lookup_eq_some lookup⟩, fun old new known found y hy hy' => ?_⟩
    obtain rfl : old = set := Option.mem_unique known settled.known
    obtain rfl : new = _ := Option.mem_unique found lookup
    rw [Finset.mem_erase] at hy'
    by_cases same : y = x
    · subst same
      simp [ConflictSet.without, acceptedSet, ConflictSet.new, own, hy]
    · have absent : y ∉ old.conflicts := fun member => hy' ⟨same, member⟩
      simp [ConflictSet.without, acceptedSet, ConflictSet.new, same, absent]
  · have absent : x ∉ set.conflicts := fun member => kept ⟨hx, member⟩
    rw [if_neg hx, if_neg absent, Option.map_map] at lookup
    refine ⟨?_, fun old new known found y hy hy' => ?_⟩
    · rw [Finmap.mem_iff, Finmap.mem_iff, lookup]
      cases c.cs.lookup x <;> simp
    · rw [known, Option.map_some] at lookup
      obtain rfl : new = _ := Option.mem_unique found lookup
      simp only [ConflictSet.without, Finset.mem_sdiff, hy, hy', not_false_eq_true, and_true,
        Function.comp_apply]

omit [Blake3 H] in
/-- What is settled or cut is in no part of the conflict graph. -/
theorem Settled.cut_gone {c c₁ c₂ : ConflictGraph H} {t : H} {W : Finset H}
    (settled : Settled c t set c₁) (cut : Cut W c₁ c₂) {x : H}
    (gone : x ∈ W ∨ x ∈ set.conflicts.erase t) :
    x ∉ c₂.cells ∧ x ∉ c₂.cs ∧ ∀ k new, c₂.cs.lookup k = some new → x ∉ new.conflicts := by
  obtain ⟨c', cut', eq⟩ := settled.cut
  have cells : c₁.cells.lookup x =
      if x ∈ set.conflicts.erase t then none else c.cells.lookup x := by
    rw [eq]
    exact cut'.cells x
  refine ⟨Finmap.lookup_eq_none.mp ?_, Finmap.lookup_eq_none.mp ?_, fun k new found => ?_⟩
  · rw [cut.cells, cells]
    rcases gone with h | h <;> simp [h]
  · rw [cut.cs, settled.cs]
    rcases gone with h | h
    · simp [h]
    · obtain ⟨ne, member⟩ := Finset.mem_erase.mp h
      simp [ne, member]
  · obtain ⟨old, known, _, rfl⟩ := cut.sets found
    rw [settled.cs] at known
    simp only [ConflictSet.without, Finset.mem_sdiff, not_and, not_not]
    intro member
    rcases gone with h | h
    · exact h
    · exfalso
      split at known
      · cases known
        obtain ⟨ne, _⟩ := Finset.mem_erase.mp h
        exact ne (by simpa [acceptedSet, ConflictSet.new] using member)
      · split at known
        · cases known
        · obtain ⟨older, _, rfl⟩ := Option.map_eq_some_iff.mp known
          exact (Finset.mem_sdiff.mp member).2 h

/-- The statuses of the produced ids are written before anything is looked up. -/
theorem acceptCell_eq (order : HashOrder H) (c : ConflictGraph H) (cell : Cell H) :
    (acceptCell order c cell = .panic ∧ ¬ ∀ id ∈ cell.produced, id ∈ c.vertices) ∨
      ∃ c₀, Cut ∅ c c₀ ∧ c₀.cs = c.cs ∧ acceptCell order c cell =
        match c.cs.lookup cell.hash with
        | none => .err .undefinedCell c₀
        | some set =>
          (Outcome.forEach (fun other c => removeCell order c other)
            ((order.hashes.list set.conflicts).filter (· ≠ cell.hash)) c₀).bind fun _ c =>
              .ok ((order.hashes.list set.conflicts).filter (· ≠ cell.hash))
                { c with cs := c.cs.insert cell.hash (acceptedSet cell.hash set) } := by
  have mem := HashMap.updateKeys_mem (fun data : VertexData H => { data with status := .accepted })
    (order.cellIds.list cell.produced) c.vertices
  have flag := HashMap.updateKeys_flag
    (fun data : VertexData H => { data with status := .accepted })
    (order.cellIds.list cell.produced) c.vertices
  have spenders := setStatus_spenders .accepted (order.cellIds.list cell.produced) c.vertices
  unfold acceptCell
  cases written : HashMap.updateKeys (fun data : VertexData H => { data with status := .accepted })
      (order.cellIds.list cell.produced) c.vertices with
  | mk done vs =>
  rw [written] at mem flag spenders
  cases done with
  | false =>
    refine Or.inl ⟨by simp only, fun all => ?_⟩
    exact Bool.false_ne_true (flag.mpr fun id hid => all id ((order.cellIds.mem _ _).mp hid))
  | true =>
    refine Or.inr ⟨{ c with vertices := vs }, ?_, rfl, ?_⟩
    · have id := Cut.refl c
      exact ⟨id.cells, id.cs, fun k => by rw [spenders]; exact id.spenders k, mem, id.order⟩
    · simp only
      cases c.cs.lookup cell.hash <;> rfl

/-- A cell with a conflict set is accepted, unless an id that it produces is missing. -/
theorem acceptCell_settles (order : HashOrder H) (ok : Consistent c) {cell : Cell H}
    (known : c.cs.lookup cell.hash = some set)
    (goes : ¬ (acceptCell order c cell = .panic ∧ ¬ ∀ id ∈ cell.produced, id ∈ c.vertices)) :
    ∃ c', Settled c cell.hash set c' ∧ acceptCell order c cell =
      .ok ((order.hashes.list set.conflicts).filter (· ≠ cell.hash)) c' := by
  obtain ⟨c₀, cut, same, eq⟩ := (acceptCell_eq order c cell).resolve_left goes
  rw [known] at eq
  have nodup := (order.hashes.nodup set.conflicts).filter fun h => decide (h ≠ cell.hash)
  have all : ∀ h ∈ (order.hashes.list set.conflicts).filter (· ≠ cell.hash),
      ∃ other, c₀.cs.lookup h = some other := by
    intro h hh
    have member := (order.hashes.mem _ _).mp (List.mem_of_mem_filter hh)
    obtain ⟨other, there, _⟩ := ok.symm cell.hash set known h member
    exact ⟨other, same ▸ there⟩
  obtain ⟨c₁, removed, cut'⟩ := removeAll_cut order _ nodup (cut.consistent ok) all
  simp only [removed, Outcome.bind_ok] at eq
  have conflicts : ((order.hashes.list set.conflicts).filter (· ≠ cell.hash)).toFinset =
      set.conflicts.erase cell.hash := by
    ext h
    simp [order.hashes.mem, and_comm]
  have total := cut.trans cut'
  rw [conflicts, Finset.empty_union] at total
  exact ⟨_, ⟨known, c₁, total, rfl⟩, eq⟩

theorem acceptCell_cases (order : HashOrder H) (ok : Consistent c) {cell : Cell H}
    (left : (acceptCell order c cell).state? = some c') :
    (c.cs.lookup cell.hash = none ∧ Cut ∅ c c' ∧
        acceptCell order c cell = .err .undefinedCell c') ∨
      ∃ set, Settled c cell.hash set c' ∧ acceptCell order c cell =
        .ok ((order.hashes.list set.conflicts).filter (· ≠ cell.hash)) c' := by
  have goes : ¬ (acceptCell order c cell = .panic ∧ ¬ ∀ id ∈ cell.produced, id ∈ c.vertices) := by
    rintro ⟨panics, _⟩
    rw [panics] at left
    cases left
  cases known : c.cs.lookup cell.hash with
  | none =>
    obtain ⟨c₀, cut, _, eq⟩ := (acceptCell_eq order c cell).resolve_left goes
    rw [known] at eq
    rw [eq] at left
    cases left
    exact Or.inl ⟨rfl, cut, eq⟩
  | some set =>
    obtain ⟨c₁, settled, eq⟩ := acceptCell_settles order ok known goes
    rw [eq] at left
    cases left
    exact Or.inr ⟨set, settled, eq⟩

theorem acceptCell_ok (order : HashOrder H) (ok : Consistent c) {cell : Cell H}
    (stored : c.cells.lookup cell.hash = some cell) (known : c.cs.lookup cell.hash = some set) :
    ∃ c', Settled c cell.hash set c' ∧ acceptCell order c cell =
      .ok ((order.hashes.list set.conflicts).filter (· ≠ cell.hash)) c' := by
  refine acceptCell_settles order ok known fun ⟨_, missing⟩ => missing fun id produced => ?_
  obtain ⟨cell', stored', ids⟩ := ok.stored _ set known
  obtain rfl : cell = cell' := Option.mem_unique stored stored'
  exact ids id (Or.inr produced)

theorem removeCell_cases (order : HashOrder H) (ok : Consistent c)
    (left : (removeCell order c hash).state? = some c') :
    (c' = c ∧ c.cs.lookup hash = none) ∨ removeCell order c hash = .ok () c' ∧ Cut {hash} c c' := by
  cases known : c.cs.lookup hash with
  | none =>
    unfold removeCell at left
    rw [known] at left
    exact Or.inl ⟨(Option.some.inj left).symm, rfl⟩
  | some set =>
    obtain ⟨c₁, removed, cut⟩ := removeCell_cut order ok known
    rw [removed] at left
    cases left
    exact Or.inr ⟨removed, cut⟩

omit [Blake3 H] in
theorem append_retuned_ids (order : HashOrder H) (c : ConflictGraph H) (ids : Finset (CellId H)) :
    (∀ id, id ∈ (c.append order ids).vertices ↔ id ∈ c.vertices ∨ id ∈ ids) ∧
      ∀ id, spendersAt (c.append order ids).vertices id = spendersAt c.vertices id := by
  refine ⟨fun id => ?_, fun id => addAccepted_spenders _ _ id⟩
  rw [append, addAccepted_mem, order.cellIds.mem]

theorem append_consistent (order : HashOrder H) (ids : Finset (CellId H)) (ok : Consistent c) :
    Consistent (c.append order ids) := by
  obtain ⟨mem, spenders⟩ := append_retuned_ids order c ids
  refine ⟨ok.hashed, ?_, ?_, ok.own, ok.symm⟩
  · intro id h member
    rw [spenders] at member
    exact ok.spender id h member
  · intro h set found
    obtain ⟨cell, stored, known⟩ := ok.stored h set found
    exact ⟨cell, stored, fun id hid => (mem id).mpr (Or.inl (known id hid))⟩

theorem new_consistent (order : HashOrder H) (genesis : Finset (CellId H)) :
    Consistent (new order genesis : ConflictGraph H) := by
  have none_spent : ∀ id, spendersAt (new order genesis : ConflictGraph H).vertices id = ∅ := by
    intro id
    rw [new, addAccepted_spenders]
    rfl
  constructor
  · simp [new]
  · simp [none_spent]
  all_goals simp [new]

/-- What a successful call does to a consistent graph. -/
inductive Effect (c : ConflictGraph H) : Call H → ConflictGraph H → Prop where
  | append (order : HashOrder H) (ids : Finset (CellId H)) :
      Effect c (.append ids) (c.append order ids)
  | insertCell {cell : Cell H} {c' : ConflictGraph H} : Inserted c cell c' →
      Effect c (.insertCell cell) c'
  | acceptCell {cell : Cell H} {set : ConflictSet H} {c' : ConflictGraph H} :
      Settled c cell.hash set c' → Effect c (.acceptCell cell) c'
  | removeCell {hash : H} {c' : ConflictGraph H} : Cut {hash} c c' →
      Effect c (.removeCell hash) c'
  | updateConflictSet {hash : H} {d1 d2 : Nat} {set : ConflictSet H} :
      c.cs.lookup hash = some set → Effect c (.updateConflictSet hash d1 d2)
        { c with cs := c.cs.insert hash (set.update hash d1 d2) }
  | resetCount {hash : H} {set : ConflictSet H} : c.cs.lookup hash = some set →
      Effect c (.resetCount hash) { c with cs := c.cs.insert hash { set with cnt := 0 } }

omit [Blake3 H] in
@[simp] theorem update_conflicts (hash : H) (d1 d2 : Nat) (set : ConflictSet H) :
    (set.update hash d1 d2).conflicts = set.conflicts := by
  unfold ConflictSet.update
  by_cases d : d1 > d2 <;> simp only [d, if_true, if_false] <;> split <;> try split
  all_goals rfl

variable {x : Call H}

theorem Effect.consistent (ok : Consistent c) (effect : Effect c x c') : Consistent c' := by
  cases effect with
  | append order ids => exact append_consistent order ids ok
  | insertCell ins => exact ins.consistent ok
  | acceptCell settled => exact settled.consistent ok
  | removeCell cut => exact cut.consistent ok
  | updateConflictSet known => exact (mutateSet_retuned known (by simp)).consistent ok
  | resetCount known =>
    refine Retuned.consistent (mutateSet_retuned known ?_) ok
    rfl

/-- A call that fails refuses a cell or changes no more than statuses. -/
theorem callAny_cases {order : HashOrder H} (ok : Consistent c)
    (left : c.callAny (order, x) = some c') :
    (c.callOk (order, x) = some c' ∧ Effect c x c') ∨ c.callOk (order, x) = none ∧
      (Cut ∅ c c' ∨ ∃ cell, x = .insertCell cell ∧ Refused c cell c') := by
  unfold callAny callOk at *
  cases x with
  | append ids => cases left; exact Or.inl ⟨rfl, .append order ids⟩
  | insertCell cell =>
    simp only [call] at left ⊢
    rcases insertCell_cases order ok.cs_cells left with ⟨eq, ins⟩ | ⟨⟨e, eq⟩, ref⟩
    · exact Or.inl ⟨by rw [eq]; rfl, .insertCell ins⟩
    · exact Or.inr ⟨by rw [eq]; rfl, Or.inr ⟨cell, rfl, ref⟩⟩
  | acceptCell cell =>
    simp only [call] at left ⊢
    have inner : (acceptCell order c cell).state? = some c' := by
      cases eq : acceptCell order c cell <;> simp_all
    rcases acceptCell_cases order ok inner with ⟨_, cut, eq⟩ | ⟨set, settled, eq⟩
    · exact Or.inr ⟨by rw [eq]; rfl, Or.inl cut⟩
    · exact Or.inl ⟨by rw [eq]; rfl, .acceptCell settled⟩
  | removeCell hash =>
    simp only [call] at left ⊢
    rcases removeCell_cases order ok left with ⟨rfl, unknown⟩ | ⟨eq, cut⟩
    · exact Or.inr ⟨by simp [removeCell, unknown, Outcome.unwrap], Or.inl (Cut.refl _)⟩
    · exact Or.inl ⟨by rw [eq]; rfl, .removeCell cut⟩
  | updateConflictSet hash d1 d2 =>
    simp only [call, updateConflictSet] at left ⊢
    rcases mutateSet_cases left with ⟨rfl, unknown⟩ | ⟨set, known, rfl, eq⟩
    · exact Or.inr ⟨mutateSet_none unknown, Or.inl (Cut.refl _)⟩
    · exact Or.inl ⟨by rw [eq]; rfl, .updateConflictSet known⟩
  | resetCount hash =>
    simp only [call, resetCount] at left ⊢
    rcases mutateSet_cases left with ⟨rfl, unknown⟩ | ⟨set, known, rfl, eq⟩
    · exact Or.inr ⟨mutateSet_none unknown, Or.inl (Cut.refl _)⟩
    · exact Or.inl ⟨by rw [eq]; rfl, .resetCount known⟩

theorem callOk_effect {order : HashOrder H} (ok : Consistent c)
    (h : c.callOk (order, x) = some c') : Effect c x c' := by
  rcases callAny_cases ok (callOk_any h) with ⟨_, effect⟩ | ⟨failed, _⟩
  · exact effect
  · rw [h] at failed; cases failed

theorem callAny_consistent (injective : Function.Injective (Cell.hash : Cell H → H))
    {x : HashOrder H × Call H} (ok : Consistent c) (left : c.callAny x = some c') :
    Consistent c' := by
  rcases callAny_cases ok left with ⟨_, effect⟩ | ⟨_, cut | ⟨_, _, ref⟩⟩
  · exact effect.consistent ok
  · exact cut.consistent ok
  · exact ref.consistent injective ok

/-- A graph comes from another by calls other than insertions. They may fail. -/
def Calls : ConflictGraph H → ConflictGraph H → Prop :=
  Relation.ReflTransGen fun c c' => ∃ order x, (∀ cell, x ≠ .insertCell cell) ∧
    c.callAny (order, x) = some c'

theorem Calls.of_call {c c' : ConflictGraph H} (order : HashOrder H) {x : Call H}
    (other : ∀ cell, x ≠ .insertCell cell) (left : (c.call (order, x)).state? = some c') :
    Calls c c' := .single ⟨order, x, other, left⟩

/-- Such calls keep what their effects keep and what the removal of nothing keeps. -/
theorem Calls.keeps {I : ConflictGraph H → Prop} (ok : ∀ {c}, I c → Consistent c)
    (cut : ∀ {c c'}, Cut ∅ c c' → I c → I c')
    (effect : ∀ {c c' x}, (∀ cell, x ≠ .insertCell cell) → Effect c x c' → I c → I c')
    {c c' : ConflictGraph H} (calls : Calls c c') (before : I c) : I c' := by
  induction calls with
  | refl => exact before
  | tail _ last ih =>
    obtain ⟨order, x, other, taken⟩ := last
    rcases callAny_cases (ok ih) taken with ⟨_, done⟩ | ⟨_, same | ⟨cell, eq, _⟩⟩
    · exact effect other done ih
    · exact cut same ih
    · exact absurd eq (other cell)

theorem Calls.consistent (calls : Calls c c') (ok : Consistent c) : Consistent c' :=
  calls.keeps id Cut.consistent (fun _ done => done.consistent) ok

end Subzero.ConflictGraph
