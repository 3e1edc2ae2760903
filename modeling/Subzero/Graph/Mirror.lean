import Subzero.Graph.Transpose

/-! A DAG that may have inverted lists without a vertex, as refused insertions leave
them behind, but no inverted edge without its edge. Vertices name at most one parent,
and the parent of a new vertex is not one of those leftovers. -/
namespace Subzero.DAG
variable {V : Type} [DecidableEq V]
variable {d d' : DAG V} {vx : V} {parent : Option V}

structure Mirrored (d : DAG V) : Prop extends Linked d where
  mirror : ∀ v p, d.Child p v → d.Parent v p

theorem Mirrored.new : Mirrored (DAG.new : DAG V) :=
  ⟨.new, fun _ _ child => absurd child.mem Finmap.notMem_empty⟩

theorem Mirrored.of_edges (mirrored : Mirrored d) (g : d'.g = d.g) (inv : d'.inv = d.inv) :
    Mirrored d' := by
  refine ⟨mirrored.toLinked.of_edges g inv, fun v p child => ?_⟩
  rw [child_iff, inv] at child
  rw [parent_iff, g]
  exact mirrored.mirror v p child

theorem Mirrored.child_mem (mirrored : Mirrored d) {v c : V} (child : d.Child v c) :
    c ∈ d.g := (mirrored.mirror c v child).mem

/-- The vertex is new in the DAG, with its parent, its inverted edge and a chit. -/
structure Taken (vx : V) (parent : Option V) (d d' : DAG V) : Prop where
  g : d'.g = d.g.insert vx parent.toList
  child : ∀ v c, d'.Child v c ↔ d.Child v c ∨ c = vx ∧ v ∈ parent
  chits : ∀ v, v ≠ vx → d'.chits.lookup v = d.chits.lookup v
  own : (d.chits.lookup vx = some 1 ∧ d'.chits.lookup vx = some 1) ∨ d'.chits.lookup vx = some 0

theorem Taken.edge (taken : Taken vx parent d d') (fresh : vx ∉ d.g) (v q : V) :
    d'.Parent v q ↔ d.Parent v q ∨ v = vx ∧ q ∈ parent := by
  rw [parent_iff, parent_iff, taken.g]
  simp only [HashMap.lookup_insert_ite]
  by_cases here : v = vx
  · subst here
    simp [Finmap.lookup_eq_none.mpr fresh]
  · simp [here]

/-- The parent is unknown. All that is left of the vertex is an empty inverted list. -/
structure Refused (vx : V) (parent : Option V) (d d' : DAG V) : Prop where
  unknown : ∃ p ∈ parent, p ∉ d.inv ∧ p ≠ vx
  g : d'.g = d.g
  child : ∀ v c, d'.Child v c ↔ d.Child v c
  chits : d'.chits = d.chits

theorem withEntry_child {inv : HashMap V (List V)} (v c : V) :
    (∃ cs, (withEntry vx inv).lookup v = some cs ∧ c ∈ cs) ↔
      ∃ cs, inv.lookup v = some cs ∧ c ∈ cs := by
  unfold withEntry
  split
  · rfl
  · rename_i absent
    constructor
    · rintro ⟨cs, found, member⟩
      rcases HashMap.lookup_insert_some found with ⟨_, rfl⟩ | ⟨_, old⟩
      · simp at member
      · exact ⟨cs, old, member⟩
    · rintro ⟨cs, found, member⟩
      have old : v ≠ vx := by
        rintro rfl
        exact absent (Finmap.mem_of_lookup_eq_some found)
      exact ⟨cs, by rw [HashMap.lookup_insert_ite, if_neg old]; exact found, member⟩

theorem setChit_zero (left : (d.setChit vx 0).state? = some d') :
    (∀ v, v ≠ vx → d'.chits.lookup v = d.chits.lookup v) ∧
      ((d.chits.lookup vx = some 1 ∧ d'.chits.lookup vx = some 1) ∨
        d'.chits.lookup vx = some 0) := by
  unfold setChit at left
  split at left
  · rename_i old found
    split at left
    · rename_i one
      cases left
      exact ⟨fun _ _ => rfl, .inl ⟨by rw [found, one], by rw [found, one]⟩⟩
    · cases left
      exact ⟨fun v other => Finmap.lookup_insert_of_ne _ other, .inr (Finmap.lookup_insert _)⟩
  · cases left
    exact ⟨fun v other => Finmap.lookup_insert_of_ne _ other, .inr (Finmap.lookup_insert _)⟩

theorem setChit_lookup {chit : Nat} (left : (d.setChit vx chit).state? = some d') (v : V) :
    d'.chits.lookup v = d.chits.lookup v ∨ d'.chits.lookup v = some chit := by
  have written : (d.chits.insert vx chit).lookup v = d.chits.lookup v ∨
      (d.chits.insert vx chit).lookup v = some chit := by
    rw [HashMap.lookup_insert_ite]
    split
    · exact .inr rfl
    · exact .inl rfl
  unfold setChit at left
  split at left
  · split at left
    · cases left
      exact .inl rfl
    · cases left
      exact written
  · cases left
    exact written

/-- The two ends of an insertion with at most one parent. -/
theorem insertVx_option (fresh : vx ∉ d.g) (left : (d.insertVx vx parent.toList).state? = some d') :
    (∀ v, v ∈ d'.inv ↔ v = vx ∨ v ∈ d.inv) ∧
      (Taken vx parent d d' ∧ (∀ p ∈ parent, p ∈ d.inv ∨ p = vx) ∨ Refused vx parent d d') := by
  have keys : ∀ v, v ∈ (HashMap.updateKeys (· ++ [vx]) parent.toList (withEntry vx d.inv)).2 ↔
      v = vx ∨ v ∈ d.inv := by
    intro v
    rw [HashMap.updateKeys_mem, mem_withEntry]
  cases parent with
  | none =>
    simp only [insertVx, Option.toList_none, HashMap.updateKeys, fresh, if_false] at left keys
    obtain ⟨g, inv⟩ := setChit_edges left
    obtain ⟨chits, own⟩ := setChit_zero left
    refine ⟨fun v => by rw [inv]; exact keys v, .inl ⟨⟨g, fun v c => ?_, chits, own⟩, by simp⟩⟩
    rw [child_iff, child_iff, inv]
    simpa using withEntry_child v c
  | some p =>
    simp only [insertVx, Option.toList_some, HashMap.updateKeys] at left keys
    cases found : (withEntry vx d.inv).lookup p with
    | none =>
      simp only [found] at left keys
      cases left
      have absent : p ∉ withEntry vx d.inv := Finmap.lookup_eq_none.mp found
      rw [mem_withEntry, not_or] at absent
      exact ⟨keys, .inr ⟨⟨p, rfl, absent.2, absent.1⟩, rfl, withEntry_child, rfl⟩⟩
    | some cs =>
      simp only [found, fresh, if_false] at left keys
      obtain ⟨g, inv⟩ := setChit_edges left
      obtain ⟨chits, own⟩ := setChit_zero left
      have known : p ∈ d.inv ∨ p = vx :=
        (mem_withEntry.mp (Finmap.mem_of_lookup_eq_some found)).symm
      refine ⟨fun v => by rw [inv]; exact keys v,
        .inl ⟨⟨g, fun v c => ?_, chits, own⟩, by simpa using known⟩⟩
      -- the new inverted edge is at the end of the list of the parent
      rw [child_iff, child_iff, inv, ← @withEntry_child _ _ vx d.inv v c]
      simp only [HashMap.lookup_insert_ite, Option.mem_some_iff]
      by_cases here : v = p
      · subst here
        simp [found]
      · simp [here, Ne.symm here]

theorem insertVx_fresh (fresh : vx ∉ d.g) (unset : vx ∉ d.chits) (known : ∀ p ∈ parent, p ∈ d.inv) :
    ∃ d', d.insertVx vx parent.toList = .ok () d' := by
  have flag := (HashMap.updateKeys_flag (· ++ [vx]) parent.toList (withEntry vx d.inv)).mpr
    fun p listed => mem_withEntry.mpr (.inr (known p (Option.mem_toList.mp listed)))
  unfold insertVx
  cases written : HashMap.updateKeys (· ++ [vx]) parent.toList (withEntry vx d.inv) with
  | mk done inv =>
    rw [written] at flag
    cases flag
    simp only [fresh, if_false, setChit, Finmap.lookup_eq_none.mpr unset]
    exact ⟨_, rfl⟩

/-- An insertion keeps the DAG mirrored unless the parent is a leftover. -/
theorem Mirrored.insertVx (mirrored : Mirrored d) (fresh : vx ∉ d.g)
    (anchored : ∀ p ∈ parent, p ∈ d.inv → p ∈ d.g ∨ p = vx)
    (left : (d.insertVx vx parent.toList).state? = some d') : Mirrored d' := by
  obtain ⟨keys, ⟨taken, known⟩ | refused⟩ := insertVx_option fresh left
  · have edge := taken.edge fresh
    have inside : ∀ p ∈ parent, p ∈ d'.g := by
      intro p named
      rw [taken.g, Finmap.mem_insert]
      rcases known p named with listed | rfl
      · exact (anchored p named listed).symm
      · exact .inl rfl
    constructor
    · refine ⟨fun v q h => ?_, fun v q h => ?_, fun v h => ?_⟩
      · rcases (edge v q).mp h with old | ⟨_, named⟩
        · rw [taken.g, Finmap.mem_insert]
          exact .inr (mirrored.closed v q old)
        · exact inside q named
      · rcases (edge v q).mp h with old | ⟨rfl, named⟩
        · exact (taken.child q v).mpr (.inl (mirrored.back v q old))
        · exact (taken.child q v).mpr (.inr ⟨rfl, named⟩)
      · rw [taken.g, Finmap.mem_insert] at h
        exact (keys v).mpr (h.imp id (mirrored.entry v))
    · intro v q h
      rcases (taken.child q v).mp h with old | ⟨rfl, named⟩
      · exact (edge v q).mpr (.inl (mirrored.mirror v q old))
      · exact (edge v q).mpr (.inr ⟨rfl, named⟩)
  · have edge : ∀ v q, d'.Parent v q ↔ d.Parent v q := by
      intro v q
      rw [parent_iff, parent_iff, refused.g]
    constructor
    · refine ⟨fun v q h => ?_, fun v q h => ?_, fun v h => ?_⟩
      · rw [refused.g]
        exact mirrored.closed v q ((edge v q).mp h)
      · exact (refused.child q v).mpr (mirrored.back v q ((edge v q).mp h))
      · rw [refused.g] at h
        exact (keys v).mpr (.inr (mirrored.entry v h))
    · exact fun v q h => (edge v q).mpr (mirrored.mirror v q ((refused.child q v).mp h))

theorem Transposed.mirrored (transposed : Transposed d) : Mirrored d where
  closed v p edge := (transposed.keys p).mpr ((transposed.edges v p).mp edge).mem
  back v p edge := (transposed.edges v p).mp edge
  entry v member := (transposed.keys v).mp member
  mirror v p child := (transposed.edges v p).mpr child

/-- A completed loop pushes the vertex on the listed keys and nowhere else. -/
theorem push_edge {edges : List V} {m : HashMap V (List V)}
    (done : (HashMap.updateKeys (· ++ [vx]) edges m).1 = true) (k x : V) :
    Edge (HashMap.updateKeys (· ++ [vx]) edges m).2.lookup k x ↔
      Edge m.lookup k x ∨ x = vx ∧ k ∈ edges := by
  induction edges generalizing m with
  | nil => simp [HashMap.updateKeys]
  | cons a edges ih =>
    cases found : m.lookup a with
    | none => simp [HashMap.updateKeys, found] at done
    | some l =>
      simp only [HashMap.updateKeys, found] at done ⊢
      rw [ih done]
      by_cases here : k = a
      · subst here
        simp [Edge, found]
        tauto
      · simp [Edge, here]

/-- A new vertex whose parents are there enters the graph with its edges. Its chit is
zero, or stays one if it had one before. -/
theorem Transposed.insertVx {edges : List V} (transposed : Transposed d) (fresh : vx ∉ d.g)
    (inside : ∀ e ∈ edges, e ∈ d.g) (left : (d.insertVx vx edges).state? = some d') :
    Transposed d' ∧ d'.g = d.g.insert vx edges ∧
      (∀ v, v ≠ vx → d'.chits.lookup v = d.chits.lookup v) ∧
      (d'.chits.lookup vx = some 0 ∨ d'.chits.lookup vx = some 1) := by
  have flag := (HashMap.updateKeys_flag (· ++ [vx]) edges (withEntry vx d.inv)).mpr fun e he =>
    mem_withEntry.mpr (Or.inr ((transposed.keys e).mp (inside e he)))
  have pushed := push_edge flag
  have mem := HashMap.updateKeys_mem (· ++ [vx]) edges (withEntry vx d.inv)
  unfold DAG.insertVx at left
  cases written : HashMap.updateKeys (· ++ [vx]) edges (withEntry vx d.inv) with
  | mk done inv =>
  rw [written] at left flag pushed mem
  cases flag
  simp only [fresh, if_false] at left
  obtain ⟨g_eq, inv_eq⟩ := setChit_edges left
  obtain ⟨others, own⟩ := setChit_zero left
  refine ⟨⟨fun v p => ?_, fun v => ?_⟩, g_eq, others, own.elim (fun h => .inr h.2) .inl⟩
  · have child : d'.Child p v ↔ d.Child p v ∨ v = vx ∧ p ∈ edges := by
      rw [Child, inv_eq, pushed]
      exact or_congr (withEntry_child p v) Iff.rfl
    have none : ¬ d.Parent vx p := fun edge => fresh edge.mem
    rw [child, parent_insert g_eq, ← transposed.edges]
    by_cases here : v = vx
    · subst here
      simp [none]
    · simp [here]
  · rw [g_eq, inv_eq, Finmap.mem_insert, mem, mem_withEntry, transposed.keys]

theorem Cut.absent (transposed : Transposed d) (absent : vx ∉ d.g) : Cut {vx} d d := by
  have trimmed : ∀ m : HashMap V (List V), vx ∉ m → (∀ k, ¬ Edge m.lookup k vx) →
      Trimmed {vx} m m := by
    intro m missing unlinked k
    by_cases here : k = vx
    · rw [if_pos (Finset.mem_singleton.mpr here), here, Finmap.lookup_eq_none.mpr missing]
    · rw [if_neg (fun h => here (Finset.mem_singleton.mp h))]
      cases found : m.lookup k with
      | none => rfl
      | some l =>
        have same : l.filter (· ∉ ({vx} : Finset V)) = l := by
          refine List.filter_eq_self.mpr fun x member => ?_
          simp only [Finset.mem_singleton, decide_not, Bool.not_eq_eq_eq_not, Bool.not_true,
            decide_eq_false_iff_not]
          rintro rfl
          exact unlinked k ⟨l, found, member⟩
        rw [Option.map_some, same]
  have closed := transposed.mirrored.closed
  refine ⟨trimmed d.g absent fun k edge => absent (closed k vx edge),
    trimmed d.inv (fun h => absent ((transposed.keys vx).mpr h)) fun k edge => ?_⟩
  exact absent (transposed.child_mem edge)

/-- Whether or not the vertex is there, it is not there afterwards. -/
theorem removeVx_gone (transposed : Transposed d) (left : (d.removeVx vx).state? = some d') :
    Cut {vx} d d' ∧ d'.chits = d.chits := by
  refine ⟨?_, (removeVx_cases left).1⟩
  by_cases present : vx ∈ d.g
  · obtain ⟨d₁, removed, cut⟩ := removeVx_cut transposed present
    rw [removed] at left
    cases left
    exact cut
  · have missing : d.inv.lookup vx = none :=
      Finmap.lookup_eq_none.mpr fun h => present ((transposed.keys vx).mpr h)
    rw [removeVx, missing] at left
    cases left
    exact .absent transposed present

end Subzero.DAG
