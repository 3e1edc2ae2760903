import Subzero.Graph.Dag

/-! The edges of the DAG along insertions and removals, failing ones included, and
what the depth-first iterator yields. -/
namespace Subzero.DAG
variable {V : Type} [DecidableEq V]
variable {d d' : DAG V} {a k v vx : V} {edges : List V}

/-- Edges stay inside the graph and every edge has its inverted edge. Inverted
edges may be left over: an insertion that fails has pushed them already. -/
structure Linked (d : DAG V) : Prop where
  closed : ∀ v p, d.Parent v p → p ∈ d.g
  back : ∀ v p, d.Parent v p → d.Child p v
  entry : ∀ v ∈ d.g, v ∈ d.inv

theorem parent_iff {v p : V} : d.Parent v p ↔ ∃ es, d.g.lookup v = some es ∧ p ∈ es := Iff.rfl

theorem parent_congr {v p : V} (same : d'.g = d.g) :
    d'.Parent v p ↔ d.Parent v p := by
  rw [parent_iff, parent_iff, same]

theorem child_iff {v c : V} : d.Child v c ↔ ∃ cs, d.inv.lookup v = some cs ∧ c ∈ cs := Iff.rfl

theorem Parent.mem {v p : V} (h : d.Parent v p) : v ∈ d.g := by
  obtain ⟨es, found, _⟩ := h
  exact Finmap.mem_of_lookup_eq_some found

theorem Child.mem {v c : V} (h : d.Child v c) : v ∈ d.inv := by
  obtain ⟨cs, found, _⟩ := h
  exact Finmap.mem_of_lookup_eq_some found

theorem Linked.new : Linked (DAG.new : DAG V) := by
  refine ⟨fun v p h => ?_, fun v p h => ?_, fun v h => absurd h Finmap.notMem_empty⟩ <;>
    exact absurd h.mem Finmap.notMem_empty

theorem Linked.closedKeys (linked : Linked d) : Closed d.g.lookup d.g.keys where
  total := fun _ hv => HashMap.mem_keys_iff.mp hv
  inside := fun v _ e edge => Finmap.mem_keys.mpr (linked.closed v e edge)

theorem Linked.ancestor_mem (linked : Linked d) (hv : v ∈ d.g) (path : d.Ancestor v a) :
    a ∈ d.g := by
  induction path with
  | refl => exact hv
  | tail _ edge _ => exact linked.closed _ _ edge

/-- The iterator yields the ancestry of a vertex, and nothing for one that is not
in the graph. -/
theorem Linked.mem_dfs (linked : Linked d) : a ∈ d.dfs v ↔ v ∈ d.g ∧ d.Ancestor v a := by
  unfold dfs
  rw [walk_unmarked_start]
  by_cases hv : v ∈ d.g
  · have walked := walk_from pushStack_perm linked.closedKeys v (Finmap.mem_keys.mpr hv)
      (d.g.keys.card + 1) (Nat.le_succ _)
    rw [walked.2.2 a]
    exact ⟨fun path => ⟨hv, path⟩, fun h => h.2⟩
  · rw [walk_absent _ _ _ _ _ (Finmap.lookup_eq_none.mpr hv)]
    simp [hv]

theorem dfs_mem (member : a ∈ d.dfs v) : a ∈ d.g :=
  Finmap.mem_iff.mpr (walk_sound pushStack_perm _ _ _ _ member).2

theorem Linked.dfs_nodup (linked : Linked d) (v : V) : (d.dfs v).Nodup := by
  unfold dfs
  rw [walk_unmarked_start]
  by_cases hv : v ∈ d.g
  · exact (walk_from pushStack_perm linked.closedKeys v (Finmap.mem_keys.mpr hv)
      (d.g.keys.card + 1) (Nat.le_succ _)).2.1
  · rw [walk_absent _ _ _ _ _ (Finmap.lookup_eq_none.mpr hv)]
    exact List.nodup_nil

theorem Linked.self_mem_dfs (linked : Linked d) (hv : v ∈ d.g) :
    v ∈ d.dfs v := linked.mem_dfs.mpr ⟨hv, .refl⟩

theorem Linked.dfs_subset (linked : Linked d) {v a b : V} (ha : a ∈ d.dfs v) (hb : b ∈ d.dfs a) :
    b ∈ d.dfs v := by
  rw [linked.mem_dfs] at ha hb ⊢
  exact ⟨ha.1, ha.2.trans hb.2⟩

theorem setChit_edges {chit : Nat} (left : (d.setChit vx chit).state? = some d') :
    d'.g = d.g ∧ d'.inv = d.inv := by
  unfold setChit at left
  split at left
  · split at left <;> cases left <;> exact ⟨rfl, rfl⟩
  · cases left; exact ⟨rfl, rfl⟩

/-- An insertion adds the edges of its vertex or none. -/
theorem insertVx_g (left : (d.insertVx vx edges).state? = some d') :
    d'.g = d.g ∨ d'.g = d.g.insert vx edges := by
  unfold insertVx at left
  split at left
  · cases left
    exact .inl rfl
  · split at left
    · cases left
      exact .inl rfl
    · exact .inr (setChit_edges left).1

theorem insertVx_returns (d : DAG V) (vx : V) (edges : List V) : d.insertVx vx edges ≠ .panic := by
  unfold insertVx
  split
  · exact nofun
  · split
    · exact nofun
    · unfold setChit
      split
      · split <;> exact nofun
      · exact nofun

theorem insertVx_ok {u : Unit} (done : d.insertVx vx edges = .ok u d') : vx ∈ d'.g := by
  unfold insertVx at done
  split at done
  · cases done
  · split at done
    · cases done
    · have left := congrArg Outcome.state? done
      rw [(setChit_edges left).1]
      exact Finmap.mem_insert.mpr (.inl rfl)

theorem Linked.of_edges (linked : Linked d) (g : d'.g = d.g) (inv : d'.inv = d.inv) :
    Linked d' := by
  obtain ⟨_, _, chits⟩ := d'
  cases g
  cases inv
  exact ⟨linked.closed, linked.back, linked.entry⟩

/-- Pushing a vertex on the lists of others only adds to the lists. -/
theorem push_lookup {vx : V} {edges : List V} {m : HashMap V (List V)} {k : V} {l : List V}
    (found : m.lookup k = some l) :
    ∃ l', (HashMap.updateKeys (· ++ [vx]) edges m).2.lookup k = some l' ∧ (∀ x ∈ l, x ∈ l') ∧
      ∀ x ∈ l', x ∈ l ∨ x = vx := by
  obtain ⟨n, hn⟩ := HashMap.updateKeys_lookup_iterate (· ++ [vx]) edges m k
  rw [found, Option.map_some] at hn
  have grow : ∀ (n : Nat) (l : List V), (∀ x ∈ l, x ∈ (· ++ [vx])^[n] l) ∧
      ∀ x ∈ (· ++ [vx])^[n] l, x ∈ l ∨ x = vx := by
    intro n
    induction n with
    | zero => exact fun l => ⟨fun _ h => h, fun _ h => Or.inl h⟩
    | succ n ih =>
      intro l
      rw [Function.iterate_succ_apply]
      refine ⟨fun x hx => (ih _).1 x (List.mem_append_left _ hx), fun x hx => ?_⟩
      rcases (ih _).2 x hx with h | h
      · rcases List.mem_append.mp h with h | h
        · exact Or.inl h
        · exact Or.inr (List.mem_singleton.mp h)
      · exact Or.inr h
  exact ⟨_, hn, grow n l⟩

theorem push_mem {vx : V} {edges : List V} {m : HashMap V (List V)}
    (done : (HashMap.updateKeys (· ++ [vx]) edges m).1 = true) {k : V} (listed : k ∈ edges) :
    ∃ l, (HashMap.updateKeys (· ++ [vx]) edges m).2.lookup k = some l ∧ vx ∈ l := by
  induction edges generalizing m with
  | nil => simp at listed
  | cons a edges ih =>
    cases ha : m.lookup a with
    | none => simp [HashMap.updateKeys, ha] at done
    | some l =>
      simp only [HashMap.updateKeys, ha] at done ⊢
      rcases List.mem_cons.mp listed with rfl | listed
      · have here : (m.insert k (l ++ [vx])).lookup k = some (l ++ [vx]) := by simp
        obtain ⟨l', found, sub, _⟩ := @push_lookup _ _ vx edges _ _ _ here
        exact ⟨l', found, sub vx (by simp)⟩
      · exact ih done listed

theorem withEntry_lookup {inv : HashMap V (List V)} {l : List V} (found : inv.lookup k = some l) :
    (withEntry vx inv).lookup k = some l := by
  unfold withEntry
  split
  · exact found
  · rename_i absent
    have ne : k ≠ vx := by
      rintro rfl
      exact absent (Finmap.mem_of_lookup_eq_some found)
    simp [ne, found]

theorem mem_withEntry {inv : HashMap V (List V)} : k ∈ withEntry vx inv ↔ k = vx ∨ k ∈ inv := by
  unfold withEntry
  split
  · rename_i present
    exact ⟨Or.inr, fun h => h.elim (fun e => e ▸ present) id⟩
  · exact Finmap.mem_insert

/-- The edges of a graph with a new vertex are those of the vertex and the old ones of others. -/
theorem parent_insert {vx v p : V} (grown : d'.g = d.g.insert vx edges) :
    d'.Parent v p ↔ if v = vx then p ∈ edges else d.Parent v p := by
  rw [parent_iff, grown, HashMap.lookup_insert_ite]
  split
  · simp
  · rw [parent_iff]

/-- An insertion whose edges lie in the graph either finds the vertex there, or
adds it with its edges. In both cases inverted edges are only added. -/
theorem insertVx_cases (linked : Linked d) (inside : ∀ e ∈ edges, e ∈ d.g)
    (left : (d.insertVx vx edges).state? = some d') :
    Linked d' ∧ (∀ v c, d.Child v c → d'.Child v c) ∧
      ((vx ∈ d.g ∧ d'.g = d.g ∧ d.insertVx vx edges = .err .vertexExists d') ∨
        vx ∉ d.g ∧ d'.g = d.g.insert vx edges) := by
  have flag := (HashMap.updateKeys_flag (· ++ [vx]) edges (withEntry vx d.inv)).mpr fun e he =>
    mem_withEntry.mpr (Or.inr (linked.entry e (inside e he)))
  have pushed := @push_mem _ _ vx edges _ flag
  have grown := @push_lookup _ _ vx edges (withEntry vx d.inv)
  have mem := HashMap.updateKeys_mem (· ++ [vx]) edges (withEntry vx d.inv)
  unfold insertVx at left ⊢
  cases written : HashMap.updateKeys (· ++ [vx]) edges (withEntry vx d.inv) with
  | mk done inv =>
  rw [written] at left flag pushed grown mem
  cases flag
  have children : ∀ v c, d.Child v c → ∃ cs, inv.lookup v = some cs ∧ c ∈ cs := by
    rintro v c ⟨cs, found, member⟩
    obtain ⟨cs', found', sub, _⟩ := grown (withEntry_lookup found)
    exact ⟨cs', found', sub c member⟩
  have entries : ∀ v, v = vx ∨ v ∈ d.g → v ∈ inv := fun v h =>
    (mem v).mpr (mem_withEntry.mpr (h.imp id (linked.entry v)))
  simp only at left ⊢
  by_cases present : vx ∈ d.g
  · rw [if_pos present] at left ⊢
    cases left
    refine ⟨⟨linked.closed, ?_, fun v hv => entries v (Or.inr hv)⟩, children,
      Or.inl ⟨present, rfl, rfl⟩⟩
    exact fun v p h => children p v (linked.back v p h)
  · rw [if_neg present] at left
    obtain ⟨g_eq, inv_eq⟩ := setChit_edges left
    have children' : ∀ v c, d.Child v c → d'.Child v c := by
      intro v c h
      rw [child_iff, inv_eq]
      exact children v c h
    have edge : ∀ v p, d'.Parent v p → v = vx ∧ p ∈ edges ∨ d.Parent v p := by
      intro v p h
      rw [parent_insert g_eq] at h
      split at h
      · rename_i hv
        exact Or.inl ⟨hv, h⟩
      · exact Or.inr h
    refine ⟨⟨fun v p h => ?_, fun v p h => ?_, fun v hv => ?_⟩, children',
      Or.inr ⟨present, g_eq⟩⟩
    · rw [g_eq, Finmap.mem_insert]
      rcases edge v p h with ⟨_, member⟩ | old
      · exact Or.inr (inside p member)
      · exact Or.inr (linked.closed v p old)
    · rcases edge v p h with ⟨rfl, member⟩ | old
      · rw [child_iff, inv_eq]
        exact pushed member
      · exact children' p v (linked.back v p old)
    · rw [g_eq, Finmap.mem_insert] at hv
      rw [inv_eq]
      exact entries v hv

end Subzero.DAG
