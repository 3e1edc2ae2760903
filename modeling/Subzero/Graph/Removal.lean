import Subzero.Graph.Links

/-! The removal of a vertex. It can fail half-way, with some of the lists written
already; the DAG stays linked all the same. -/
namespace Subzero.DAG
variable {V : Type} [DecidableEq V]

/-- The lists may have lost `vx`, and nothing else. -/
structure Thinned (vx : V) (m m' : HashMap V (List V)) : Prop where
  mem : ∀ k, k ∈ m' ↔ k ∈ m
  list : ∀ k l, m.lookup k = some l → ∃ l', m'.lookup k = some l' ∧ (∀ x ∈ l', x ∈ l) ∧
    ∀ x ∈ l, x ≠ vx → x ∈ l'

theorem Thinned.refl (vx : V) (m : HashMap V (List V)) : Thinned vx m m :=
  ⟨fun _ => Iff.rfl, fun _ l found => ⟨l, found, fun _ h => h, fun _ h _ => h⟩⟩

theorem Thinned.back {vx : V} {m m' : HashMap V (List V)} (thin : Thinned vx m m') {k : V}
    {l' : List V} (found : m'.lookup k = some l') :
    ∃ l, m.lookup k = some l ∧ ∀ x ∈ l', x ∈ l := by
  obtain ⟨l, known⟩ := Finmap.mem_iff.mp ((thin.mem k).mp (Finmap.mem_of_lookup_eq_some found))
  obtain ⟨l₁, found₁, sub, _⟩ := thin.list k l known
  rw [found] at found₁
  cases found₁
  exact ⟨l, known, sub⟩

theorem drop_thinned (vx : V) (keys : List V) (m : HashMap V (List V)) :
    Thinned vx m (HashMap.updateKeys (·.filter (· ≠ vx)) keys m).2 := by
  refine ⟨HashMap.updateKeys_mem _ _ _, fun k l found => ?_⟩
  obtain ⟨n, hn⟩ := HashMap.updateKeys_lookup_iterate (·.filter (· ≠ vx)) keys m k
  rw [found, Option.map_some] at hn
  have shrink : ∀ (n : Nat) (l : List V), (∀ x ∈ (·.filter (· ≠ vx))^[n] l, x ∈ l) ∧
      ∀ x ∈ l, x ≠ vx → x ∈ (·.filter (· ≠ vx))^[n] l := by
    intro n
    induction n with
    | zero => exact fun l => ⟨fun _ h => h, fun _ h _ => h⟩
    | succ n ih =>
      intro l
      rw [Function.iterate_succ_apply]
      refine ⟨fun x hx => List.mem_of_mem_filter ((ih _).1 x hx), fun x hx ne => ?_⟩
      exact (ih _).2 x (List.mem_filter.mpr ⟨hx, by simpa using ne⟩) ne
  exact ⟨_, hn, shrink n l⟩

/-- A removal that returns an error has thinned some lists. One that returns the
children has also taken the vertex out of both maps, and out of the list of every
child. -/
theorem removeVx_cases {d d' : DAG V} {vx : V} (left : (d.removeVx vx).state? = some d') :
    d'.chits = d.chits ∧
      ((∃ e, d.removeVx vx = .err e d') ∧ Thinned vx d.g d'.g ∧ Thinned vx d.inv d'.inv ∧
          (d'.inv = d.inv ∨ ∃ p, d.Parent vx p ∧ p ∉ d.inv) ∨
        ∃ children g inv, d.removeVx vx = .ok children.toFinset d' ∧
          d.inv.lookup vx = some children ∧ vx ∈ d.g ∧ Thinned vx d.g g ∧ Thinned vx d.inv inv ∧
          d'.g = g.erase vx ∧ d'.inv = inv.erase vx ∧
          ∀ c ∈ children, ∀ l, g.lookup c = some l → vx ∉ l) := by
  unfold removeVx at left ⊢
  cases known : d.inv.lookup vx with
  | none =>
    rw [known] at left
    cases left
    exact ⟨rfl, Or.inl ⟨⟨_, rfl⟩, .refl _ _, .refl _ _, Or.inl rfl⟩⟩
  | some children =>
    rw [known] at left
    have thin := drop_thinned vx children d.g
    have entries := HashMap.updateKeys_lookup (·.filter (· ≠ vx)) (fun l => by simp) children d.g
    simp only at left ⊢
    cases written : HashMap.updateKeys (·.filter (· ≠ vx)) children d.g with
    | mk done g =>
    rw [written] at left thin entries
    cases done with
    | false =>
      cases left
      exact ⟨rfl, Or.inl ⟨⟨_, rfl⟩, thin, .refl _ _, Or.inl rfl⟩⟩
    | true =>
      simp only at left ⊢
      cases own : g.lookup vx with
      | none =>
        rw [own] at left
        cases left
        exact ⟨rfl, Or.inl ⟨⟨_, rfl⟩, thin, .refl _ _, Or.inl rfl⟩⟩
      | some parents =>
        rw [own] at left
        obtain ⟨es, at_vx, sub⟩ := thin.back own
        have thin' := drop_thinned vx parents d.inv
        have flag := HashMap.updateKeys_flag (·.filter (· ≠ vx)) parents d.inv
        simp only at left ⊢
        cases written' : HashMap.updateKeys (·.filter (· ≠ vx)) parents d.inv with
        | mk done' inv =>
        rw [written'] at left thin' flag
        cases done' with
        | false =>
          cases left
          refine ⟨rfl, Or.inl ⟨⟨_, rfl⟩, thin, thin', Or.inr ?_⟩⟩
          by_contra all
          push Not at all
          exact Bool.false_ne_true
            (flag.mpr fun p hp => all p ⟨es, at_vx, sub p hp⟩)
        | true =>
          cases left
          refine ⟨rfl, Or.inr ⟨children, g, inv, rfl, rfl, ?_, thin, thin', rfl, rfl, ?_⟩⟩
          · exact Finmap.mem_of_lookup_eq_some at_vx
          · intro c listed l found member
            rw [entries rfl c, if_pos listed, Option.map_eq_some_iff] at found
            obtain ⟨old, _, rfl⟩ := found
            simp at member

/-- No removal adds an edge or a vertex; other vertices and the edges between them
stay. -/
structure Frame (vx : V) (d d' : DAG V) : Prop where
  parent : ∀ v p, d'.Parent v p → d.Parent v p
  child : ∀ v c, d'.Child v c → d.Child v c
  vertex : ∀ v ∈ d'.g, v ∈ d.g
  others : ∀ v ≠ vx, v ∈ d.g → v ∈ d'.g
  keep : ∀ v p, v ≠ vx → p ≠ vx → d.Parent v p → d'.Parent v p

theorem removeVx_frame {d d' : DAG V} {vx : V} (left : (d.removeVx vx).state? = some d') :
    Frame vx d d' := by
  have edges : ∀ {m m' : HashMap V (List V)}, Thinned vx m m' → ∀ {k x l'},
      m'.lookup k = some l' → x ∈ l' → ∃ l, m.lookup k = some l ∧ x ∈ l := by
    intro m m' thin k x l' found member
    obtain ⟨l, known, sub⟩ := thin.back found
    exact ⟨l, known, sub x member⟩
  obtain ⟨_, ⟨_, thin, thin', _⟩ | ⟨children, g, inv, _, _, _, thin, thin', g_eq, inv_eq, _⟩⟩ :=
    removeVx_cases left
  · refine ⟨?_, ?_, fun v hv => (thin.mem v).mp hv, fun v _ hv => (thin.mem v).mpr hv, ?_⟩
    · rintro v p ⟨l', found, member⟩
      exact edges thin found member
    · rintro v c ⟨l', found, member⟩
      exact edges thin' found member
    · rintro v p _ ne ⟨l, found, member⟩
      obtain ⟨l', found', _, keep⟩ := thin.list v l found
      exact ⟨l', found', keep p member ne⟩
  · refine ⟨fun v p h => ?_, fun v c h => ?_, fun v hv => ?_, fun v ne hv => ?_, ?_⟩
    · obtain ⟨l', found, member⟩ := parent_iff.mp h
      rw [g_eq, HashMap.lookup_erase_ite] at found
      split at found
      · cases found
      · exact edges thin found member
    · obtain ⟨l', found, member⟩ := child_iff.mp h
      rw [inv_eq, HashMap.lookup_erase_ite] at found
      split at found
      · cases found
      · exact edges thin' found member
    · rw [g_eq, Finmap.mem_erase] at hv
      exact (thin.mem v).mp hv.2
    · rw [g_eq, Finmap.mem_erase]
      exact ⟨ne, (thin.mem v).mpr hv⟩
    · rintro v p hv hp ⟨l, found, member⟩
      obtain ⟨l', found', _, keep⟩ := thin.list v l found
      rw [parent_iff, g_eq, HashMap.lookup_erase_ite, if_neg hv]
      exact ⟨l', found', keep p member hp⟩

theorem Linked.removeVx {d d' : DAG V} {vx : V} (linked : Linked d)
    (left : (d.removeVx vx).state? = some d') : Linked d' := by
  have up := (removeVx_frame left).parent
  obtain ⟨_, ⟨_, thin, thin', same⟩ | ⟨children, g, inv, _, known, _, thin, thin', g_eq, inv_eq,
    gone⟩⟩ := removeVx_cases left
  · -- a parent without an entry is impossible, so the inverted lists are untouched
    have inv_eq : d'.inv = d.inv := by
      rcases same with same | ⟨p, edge, missing⟩
      · exact same
      · exact absurd (linked.back vx p edge).mem missing
    refine ⟨fun v p h => (thin.mem p).mpr (linked.closed v p (up v p h)), fun v p h => ?_,
      fun v hv => ?_⟩
    · rw [child_iff, inv_eq]
      exact linked.back v p (up v p h)
    · rw [inv_eq]
      exact linked.entry v ((thin.mem v).mp hv)
  · have apart : ∀ v p, d'.Parent v p → v ≠ vx ∧ p ≠ vx := by
      intro v p h
      obtain ⟨l, found, member⟩ := parent_iff.mp h
      rw [g_eq, HashMap.lookup_erase_ite] at found
      split at found
      · cases found
      · rename_i ne
        refine ⟨ne, ?_⟩
        rintro rfl
        obtain ⟨cs, at_p, listed⟩ := child_iff.mp (linked.back v p (up v p h))
        rw [known] at at_p
        cases at_p
        exact gone v listed l found member
    refine ⟨fun v p h => ?_, fun v p h => ?_, fun v hv => ?_⟩
    · rw [g_eq, Finmap.mem_erase]
      exact ⟨(apart v p h).2, (thin.mem p).mpr (linked.closed v p (up v p h))⟩
    · obtain ⟨cs, at_p, listed⟩ := child_iff.mp (linked.back v p (up v p h))
      obtain ⟨cs', found, _, keep⟩ := thin'.list p cs at_p
      refine ⟨cs', ?_, keep v listed (apart v p h).1⟩
      rw [inv_eq]
      simp [(apart v p h).2, found]
    · rw [g_eq, Finmap.mem_erase] at hv
      rw [inv_eq, Finmap.mem_erase]
      exact ⟨hv.1, (thin'.mem v).mpr (linked.entry v ((thin.mem v).mp hv.2))⟩

end Subzero.DAG
