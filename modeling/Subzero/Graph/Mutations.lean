import Subzero.Graph.Mirror
import Subzero.Lib.Run

/-! Sequences of the three mutators of the DAG. As long as they all return, the inverted
edges are the edges turned round, each as often as it occurs. A failing insertion may
leave inverted edges behind, and an entry for a vertex that is not there. -/
namespace Subzero.DAG
variable {V : Type} [DecidableEq V]
variable {d d' : DAG V} {vx : V} {edges : List V}

inductive Mutation (V : Type) where
  | insertVx (vx : V) (edges : List V)
  | removeVx (vx : V)
  | setChit (vx : V) (chit : Nat)
  deriving DecidableEq

/-- A call without the children that a removal returns. -/
def mutate (d : DAG V) : Mutation V → Outcome (GraphError V) (DAG V) Unit
  | .insertVx vx edges => d.insertVx vx edges
  | .removeVx vx => (d.removeVx vx).bind fun _ d => .ok () d
  | .setChit vx chit => d.setChit vx chit

/-- A call that returns `Ok`. -/
def mutateOk (d : DAG V) (m : Mutation V) : Option (DAG V) := (d.mutate m).unwrap.map Prod.snd

/-- A call, whatever it returns. -/
def mutateAny (d : DAG V) (m : Mutation V) : Option (DAG V) := (d.mutate m).state?

/-- The parents of a vertex, with repetitions. -/
def parents (d : DAG V) (v : V) : List V := (d.g.lookup v).getD []

/-- The children of a vertex, with repetitions. -/
def children (d : DAG V) (v : V) : List V := (d.inv.lookup v).getD []

/-- Both maps have the same vertices and the same edges, and every vertex has a chit. -/
structure Representation (d : DAG V) : Prop where
  keys : d.g.keys = d.inv.keys
  parent : ∀ v, ∀ p ∈ d.parents v, p ∈ d.g
  child : ∀ p, ∀ v ∈ d.children p, v ∈ d.g
  count : ∀ v p, (d.parents v).count p = (d.children p).count v
  chit : ∀ v ∈ d.g, v ∈ d.chits

theorem mem_parents {v p : V} : p ∈ d.parents v ↔ d.Parent v p := by
  rw [parent_iff, parents]
  cases d.g.lookup v <;> simp

theorem mem_children {v c : V} : c ∈ d.children v ↔ d.Child v c := by
  rw [child_iff, children]
  cases d.inv.lookup v <;> simp

theorem Representation.transposed (rep : Representation d) : Transposed d where
  edges v p := by
    rw [← mem_parents, ← mem_children, ← List.count_pos_iff, rep.count, List.count_pos_iff]
  keys v := by rw [← Finmap.mem_keys, rep.keys, Finmap.mem_keys]

theorem Representation.of_transposed (transposed : Transposed d)
    (count : ∀ v p, (d.parents v).count p = (d.children p).count v)
    (chit : ∀ v ∈ d.g, v ∈ d.chits) : Representation d where
  keys := by
    ext v
    rw [Finmap.mem_keys, Finmap.mem_keys, transposed.keys]
  parent v p listed := transposed.mirrored.closed v p (mem_parents.mp listed)
  child p v listed := transposed.child_mem (mem_children.mp listed)
  count := count
  chit := chit

theorem Representation.new : Representation (DAG.new : DAG V) :=
  .of_transposed .new (fun _ _ => rfl) fun _ member => absurd member Finmap.notMem_empty

/-- A completed loop pushes the vertex once for every occurrence of a key. -/
theorem push_replicate {m : HashMap V (List V)}
    (done : (HashMap.updateKeys (· ++ [vx]) edges m).1 = true) (k : V) :
    (HashMap.updateKeys (· ++ [vx]) edges m).2.lookup k =
      (m.lookup k).map (· ++ List.replicate (edges.count k) vx) := by
  induction edges generalizing m with
  | nil => simp [HashMap.updateKeys]
  | cons a edges ih =>
    cases found : m.lookup a with
    | none => simp [HashMap.updateKeys, found] at done
    | some l =>
      simp only [HashMap.updateKeys, found] at done ⊢
      rw [ih done, HashMap.lookup_insert_ite]
      by_cases here : k = a
      · subst here
        simp [found, List.replicate_succ]
      · simp [here, Ne.symm here]

/-- What an insertion that returns has found and what it has written. -/
structure Inserted (vx : V) (edges : List V) (d d' : DAG V) : Prop where
  fresh : vx ∉ d.g
  unchitted : d.chits.lookup vx ≠ some 1
  entries : ∀ e ∈ edges, e ∈ withEntry vx d.inv
  g : d'.g = d.g.insert vx edges
  inv : d'.inv = (HashMap.updateKeys (· ++ [vx]) edges (withEntry vx d.inv)).2
  chits : d'.chits = d.chits.insert vx 0

theorem setChit_ok {chit : Nat} {u : Unit} :
    d.setChit vx chit = .ok u d' ↔
      d.chits.lookup vx ≠ some 1 ∧ d' = { d with chits := d.chits.insert vx chit } := by
  unfold setChit
  cases d.chits.lookup vx with
  | none => simp [eq_comm]
  | some old => by_cases one : old = 1 <;> simp [one, eq_comm]

theorem setChit_err {chit : Nat} {e : GraphError V} (failed : d.setChit vx chit = .err e d') :
    d.chits.lookup vx = some 1 ∧ d' = d := by
  unfold setChit at failed
  split at failed
  · rename_i old found
    split at failed
    · rename_i one
      cases failed
      exact ⟨by rw [found, one], rfl⟩
    · contradiction
  · contradiction

theorem insertVx_inserted {u : Unit} (done : d.insertVx vx edges = .ok u d') :
    Inserted vx edges d d' := by
  have flag := HashMap.updateKeys_flag (· ++ [vx]) edges (withEntry vx d.inv)
  unfold insertVx at done
  split at done
  · contradiction
  · rename_i inv written
    rw [written] at flag
    split at done
    · contradiction
    · rename_i fresh
      obtain ⟨unchitted, rfl⟩ := setChit_ok.mp done
      exact ⟨fresh, unchitted, flag.mp rfl, rfl, by rw [written], rfl⟩

theorem withEntry_getD {vx k : V} {inv : HashMap V (List V)} :
    ((withEntry vx inv).lookup k).getD [] = (inv.lookup k).getD [] := by
  unfold withEntry
  split
  · rfl
  · rename_i absent
    rw [HashMap.lookup_insert_ite]
    split
    · rename_i here
      rw [here, Finmap.lookup_eq_none.mpr absent]
      rfl
    · rfl

theorem Inserted.parents (ins : Inserted vx edges d d') (v : V) :
    d'.parents v = if v = vx then edges else d.parents v := by
  rw [DAG.parents, DAG.parents, ins.g, HashMap.lookup_insert_ite]
  split <;> rfl

theorem Inserted.children (ins : Inserted vx edges d d') (p : V) :
    d'.children p = d.children p ++ List.replicate (edges.count p) vx := by
  have done := (HashMap.updateKeys_flag (· ++ [vx]) edges (withEntry vx d.inv)).mpr ins.entries
  rw [DAG.children, DAG.children, ins.inv, push_replicate done, ← @withEntry_getD _ _ vx]
  cases found : (withEntry vx d.inv).lookup p with
  | some l => rfl
  | none =>
    have unlisted : p ∉ edges := fun listed =>
      Finmap.lookup_eq_none.mp found (ins.entries p listed)
    simp [List.count_eq_zero_of_not_mem unlisted]

/-- A new vertex may have itself as a parent, since its entry is opened first. -/
theorem Inserted.representation (rep : Representation d) (ins : Inserted vx edges d d') :
    Representation d' := by
  have mem : ∀ v, v ∈ d'.g ↔ v = vx ∨ v ∈ d.g := fun v => by rw [ins.g, Finmap.mem_insert]
  have unborn : d.parents vx = [] := by
    rw [DAG.parents, Finmap.lookup_eq_none.mpr ins.fresh]
    rfl
  have count : ∀ v p, (d'.parents v).count p = (d'.children p).count v := by
    intro v p
    rw [ins.parents, ins.children, List.count_append, List.count_replicate, ← rep.count]
    by_cases here : v = vx
    · simp [here, unborn]
    · simp [here, Ne.symm here]
  refine .of_transposed ⟨fun v p => ?_, fun v => ?_⟩ count fun v present => ?_
  · rw [← mem_parents, ← mem_children, ← List.count_pos_iff, count, List.count_pos_iff]
  · rw [mem, ins.inv, HashMap.updateKeys_mem, mem_withEntry, rep.transposed.keys]
  · rw [ins.chits, Finmap.mem_insert]
    exact ((mem v).mp present).imp_right (rep.chit v)

theorem removeVx_undefined (transposed : Transposed d) (absent : vx ∉ d.g) :
    d.removeVx vx = .err .undefinedVertex d := by
  have missing : d.inv.lookup vx = none :=
    Finmap.lookup_eq_none.mpr fun h => absent ((transposed.keys vx).mpr h)
  rw [removeVx, missing]

/-- A removal returns the children, each once, and takes out the edges of the vertex. -/
theorem removeVx_returns {returned : Finset V} (transposed : Transposed d)
    (done : d.removeVx vx = .ok returned d') :
    (∀ c, c ∈ returned ↔ d.Parent c vx) ∧ Cut {vx} d d' ∧ d'.chits = d.chits := by
  have gone := removeVx_gone transposed (congrArg Outcome.state? done)
  refine ⟨fun c => ?_, gone.1, gone.2⟩
  by_cases present : vx ∈ d.g
  · obtain ⟨d₁, removed, _⟩ := removeVx_cut transposed present
    rw [removed] at done
    cases done
    rw [mem_childSet, transposed.edges]
  · rw [removeVx_undefined transposed present] at done
    contradiction

theorem Trimmed.count {R : Finset V} {m m' : HashMap V (List V)} (trim : Trimmed R m m')
    (k x : V) :
    ((m'.lookup k).getD []).count x =
      if k ∈ R ∨ x ∈ R then 0 else ((m.lookup k).getD []).count x := by
  rw [trim k]
  by_cases gone : k ∈ R
  · simp [gone]
  · cases m.lookup k with
    | none => simp [gone]
    | some l =>
      simp only [gone, if_false, false_or, Option.map_some, Option.getD_some]
      split
      · rename_i dropped
        exact List.count_eq_zero_of_not_mem fun listed => by simp [dropped] at listed
      · rename_i kept
        exact List.count_filter (by simpa using kept)

theorem Cut.representation {R : Finset V} (rep : Representation d) (cut : Cut R d d')
    (chits : d'.chits = d.chits) : Representation d' := by
  refine .of_transposed (cut.transposed rep.transposed) (fun v p => ?_) fun v present => ?_
  · have same := rep.count v p
    rw [parents, children] at same ⊢
    rw [cut.g.count, cut.inv.count, same]
    exact if_congr or_comm rfl rfl
  · rw [chits]
    exact rep.chit v (cut.g.mem.mp present).1

theorem Representation.mutate {m : Mutation V} (rep : Representation d)
    (taken : d.mutateOk m = some d') : Representation d' := by
  obtain ⟨⟨u, d₁⟩, unwrapped, rfl⟩ := Option.map_eq_some_iff.mp taken
  have done := Outcome.unwrap_eq_some.mp unwrapped
  cases m with
  | insertVx vx edges => exact (insertVx_inserted done).representation rep
  | removeVx vx =>
    obtain ⟨returned, d₂, removed, same⟩ := Outcome.bind_eq_ok.mp done
    cases same
    obtain ⟨_, cut, chits⟩ := removeVx_returns rep.transposed removed
    exact cut.representation rep chits
  | setChit vx chit =>
    obtain ⟨_, rfl⟩ := setChit_ok.mp done
    refine .of_transposed (rep.transposed.of_edges rfl rfl) rep.count fun v present => ?_
    exact Finmap.mem_insert.mpr (.inr (rep.chit v present))

/-- After any calls that all return the two maps describe the same edges, and every removal
among them has returned the children of its vertex and taken out its edges only. -/
theorem mutations_representation {steps : List (DAG V × Mutation V)} {d : DAG V}
    (run : Run mutateOk new steps d) :
    Representation d ∧ ∀ s x, (s, .removeVx x) ∈ steps → ∃ returned s',
      s.removeVx x = .ok returned s' ∧ (∀ c, c ∈ returned ↔ s.Parent c x) ∧ Cut {x} s s' := by
  have all := run.relates (fun _ _ => True) (fun _ _ => trivial) Representation (fun _ _ => True)
    .new (fun _ => trivial) (fun _ _ _ _ _ => trivial)
    fun _ _ _ rep _ taken => ⟨rep.mutate taken, trivial⟩
  refine ⟨all.1, fun s x listed => ?_⟩
  obtain ⟨s', taken⟩ := run.taken _ listed
  obtain ⟨⟨u, s₁⟩, unwrapped, rfl⟩ := Option.map_eq_some_iff.mp taken
  obtain ⟨returned, s₂, removed, _⟩ := Outcome.bind_eq_ok.mp (Outcome.unwrap_eq_some.mp unwrapped)
  have rep := (all.2 s (List.mem_append_left _ (List.mem_map_of_mem listed))).1
  obtain ⟨exactly, cut, _⟩ := removeVx_returns rep.transposed removed
  exact ⟨returned, s₂, removed, exactly, cut⟩

/-- Parents may be repeated, and a vertex may be its own parent. -/
def repeatedParents : List (Mutation Nat) :=
  [.insertVx 0 [0, 0], .insertVx 1 [0, 0], .removeVx 0]

theorem mutations_representation_repeated :
    ∃ steps d, Run mutateOk (new : DAG Nat) steps d ∧ steps.map Prod.snd = repeatedParents ∧
      Representation d := by
  have found : (exec mutateOk (new : DAG Nat) repeatedParents).any fun r =>
      decide (r.1.map Prod.snd = repeatedParents) := by
    decide +kernel
  obtain ⟨steps, d, run, events⟩ := exec_any found
  exact ⟨steps, d, run, of_decide_eq_true events, (mutations_representation run).1⟩

/-- A call that fails leaves the DAG as it was. -/
def Atomic (d : DAG V) (m : Mutation V) : Prop := ∀ e d', d.mutate m = .err e d' → d' = d

/-- A new vertex names parents that are there and its chit, if it has an old one, is not set;
a vertex that is there names no parent, or first of all one that is not there. -/
def Harmless (d : DAG V) : Mutation V → Prop
  | .insertVx vx edges =>
    (vx ∉ d.g ∧ (∀ e ∈ edges, e = vx ∨ e ∈ d.g) ∧ d.chits.lookup vx ≠ some 1) ∨
      vx ∈ d.g ∧ ∀ e ∈ edges.head?, e ∉ d.g
  | _ => True

/-- The first push is on a list that is there or the loop ends before it writes. -/
theorem push_unchanged {m : HashMap V (List V)} :
    (HashMap.updateKeys (· ++ [vx]) edges m).2 = m ↔ ∀ e ∈ edges.head?, e ∉ m := by
  cases edges with
  | nil => simp [HashMap.updateKeys]
  | cons a edges =>
    cases found : m.lookup a with
    | none => simp [HashMap.updateKeys, found, Finmap.lookup_eq_none.mp found]
    | some l =>
      have present : a ∈ m := Finmap.mem_of_lookup_eq_some found
      simp only [HashMap.updateKeys, found, List.head?_cons, Option.mem_some_iff, forall_eq',
        present, not_true_eq_false, iff_false]
      intro same
      obtain ⟨n, longer⟩ := HashMap.updateKeys_lookup_iterate (· ++ [vx]) edges
        (m.insert a (l ++ [vx])) a
      rw [same, found, Finmap.lookup_insert, Option.map_some] at longer
      have grow : ∀ (n : Nat) (l : List V), ((· ++ [vx])^[n] l).length = l.length + n := by
        intro n
        induction n with
        | zero => exact fun _ => rfl
        | succ n ih =>
          intro l
          rw [Function.iterate_succ_apply, ih, List.length_append, List.length_singleton]
          omega
      have lengths := congrArg List.length (Option.some.inj longer)
      rw [grow, List.length_append, List.length_singleton] at lengths
      omega

theorem insertVx_vacant (missing : ¬ ∀ e ∈ edges, e ∈ withEntry vx d.inv) :
    d.insertVx vx edges = .err .vacantEntry
      { d with inv := (HashMap.updateKeys (· ++ [vx]) edges (withEntry vx d.inv)).2 } := by
  rw [← HashMap.updateKeys_flag (· ++ [vx]), Bool.not_eq_true] at missing
  unfold insertVx
  split
  · rename_i written
    rw [written]
  · rename_i written
    rw [written] at missing
    contradiction

theorem insertVx_entries (entries : ∀ e ∈ edges, e ∈ withEntry vx d.inv) :
    d.insertVx vx edges =
      if vx ∈ d.g then .err .vertexExists
        { d with inv := (HashMap.updateKeys (· ++ [vx]) edges (withEntry vx d.inv)).2 }
      else setChit { d with
        g := d.g.insert vx edges
        inv := (HashMap.updateKeys (· ++ [vx]) edges (withEntry vx d.inv)).2 } vx 0 := by
  rw [← HashMap.updateKeys_flag (· ++ [vx])] at entries
  unfold insertVx
  split
  · rename_i written
    rw [written] at entries
    contradiction
  · rename_i written
    rw [written]

/-- An insertion of a vertex that is there always fails. -/
theorem insertVx_known (present : vx ∈ d.g) :
    ∃ e, d.insertVx vx edges = .err e
      { d with inv := (HashMap.updateKeys (· ++ [vx]) edges (withEntry vx d.inv)).2 } := by
  by_cases entries : ∀ e ∈ edges, e ∈ withEntry vx d.inv
  · exact ⟨_, (insertVx_entries entries).trans (if_pos present)⟩
  · exact ⟨_, insertVx_vacant entries⟩

theorem Transposed.mem_withEntry (transposed : Transposed d) {vx e : V} :
    e ∈ withEntry vx d.inv ↔ e = vx ∨ e ∈ d.g := by
  rw [DAG.mem_withEntry, transposed.keys]

theorem insertVx_atomic_known (transposed : Transposed d) (present : vx ∈ d.g) :
    Atomic d (.insertVx vx edges) ↔ ∀ e ∈ edges.head?, e ∉ d.g := by
  have same : withEntry vx d.inv = d.inv := if_pos ((transposed.keys vx).mp present)
  obtain ⟨e, failed⟩ := @insertVx_known _ _ d vx edges present
  rw [same] at failed
  have unchanged : Atomic d (.insertVx vx edges) ↔
      (HashMap.updateKeys (· ++ [vx]) edges d.inv).2 = d.inv := by
    constructor
    · intro atomic
      exact congrArg DAG.inv (atomic e _ failed)
    · intro written e' d' failed'
      rw [mutate, failed, written] at failed'
      cases failed'
      rfl
  simp only [unchanged, push_unchanged, transposed.keys]

/-- A new vertex whose parents have entries goes in, unless it had a chit before. -/
theorem insertVx_succeeds (entries : ∀ e ∈ edges, e ∈ withEntry vx d.inv) (fresh : vx ∉ d.g)
    (unchitted : d.chits.lookup vx ≠ some 1) : ∃ d', d.insertVx vx edges = .ok () d' := by
  rw [insertVx_entries entries, if_neg fresh]
  exact ⟨_, setChit_ok.mpr ⟨unchitted, rfl⟩⟩

theorem insertVx_taken (transposed : Transposed d) (fresh : vx ∉ d.g)
    (inside : ∀ e ∈ edges, e = vx ∨ e ∈ d.g) (unchitted : d.chits.lookup vx ≠ some 1) :
    ∃ d', d.insertVx vx edges = .ok () d' := by
  apply insertVx_succeeds _ fresh unchitted
  exact fun e listed => transposed.mem_withEntry.mpr (inside e listed)

theorem insertVx_atomic_fresh (transposed : Transposed d) (fresh : vx ∉ d.g) :
    Atomic d (.insertVx vx edges) ↔
      (∀ e ∈ edges, e = vx ∨ e ∈ d.g) ∧ d.chits.lookup vx ≠ some 1 := by
  by_cases entries : ∀ e ∈ edges, e ∈ withEntry vx d.inv
  · have inside : ∀ e ∈ edges, e = vx ∨ e ∈ d.g := fun e listed =>
      transposed.mem_withEntry.mp (entries e listed)
    have eq := (insertVx_entries entries).trans (if_neg fresh)
    by_cases one : d.chits.lookup vx = some 1
    · -- the vertex is in the graph when the old chit stops the insertion
      rw [setChit] at eq
      simp only [one, if_true] at eq
      simp only [one, ne_eq, not_true_eq_false, and_false, iff_false]
      intro atomic
      have g := congrArg DAG.g (atomic _ _ eq)
      exact fresh (g ▸ Finmap.mem_insert.mpr (.inl rfl))
    · refine ⟨fun _ => ⟨inside, one⟩, fun _ e d' failed => ?_⟩
      obtain ⟨d₁, taken⟩ := insertVx_succeeds entries fresh one
      rw [mutate, taken] at failed
      contradiction
  · have outside : ¬ ∀ e ∈ edges, e = vx ∨ e ∈ d.g := by
      simpa only [transposed.mem_withEntry] using entries
    simp only [outside, false_and, iff_false]
    -- the entry of the vertex is new
    intro atomic
    have inv := congrArg DAG.inv (atomic _ _ (insertVx_vacant entries))
    have opened : vx ∈ d.inv := by
      rw [← inv, HashMap.updateKeys_mem, DAG.mem_withEntry]
      exact .inl rfl
    exact fresh ((transposed.keys vx).mpr opened)

/-- In a DAG with all its inverted edges only an insertion can fail with a trace. -/
theorem atomic_iff_harmless (transposed : Transposed d) (m : Mutation V) :
    Atomic d m ↔ Harmless d m := by
  cases m with
  | insertVx vx edges =>
    by_cases present : vx ∈ d.g
    · simp [Harmless, insertVx_atomic_known transposed present, present]
    · simp [Harmless, insertVx_atomic_fresh transposed present, present]
  | removeVx vx =>
    refine iff_of_true (fun e d' failed => ?_) trivial
    by_cases present : vx ∈ d.g
    · obtain ⟨d₁, removed, _⟩ := removeVx_cut transposed present
      rw [mutate, removed] at failed
      contradiction
    · rw [mutate, removeVx_undefined transposed present] at failed
      cases failed
      rfl
  | setChit vx chit =>
    refine iff_of_true (fun e d' failed => ?_) trivial
    rw [mutate] at failed
    exact (setChit_err failed).2

theorem Representation.mutateAny {m : Mutation V} (rep : Representation d) (harmless : Harmless d m)
    (taken : d.mutateAny m = some d') : Representation d' := by
  unfold DAG.mutateAny at taken
  cases result : d.mutate m with
  | panic =>
    rw [result] at taken
    contradiction
  | err e d₁ =>
    rw [result] at taken
    cases taken
    rw [(atomic_iff_harmless rep.transposed m).mpr harmless e d' result]
    exact rep
  | ok u d₁ =>
    rw [result] at taken
    cases taken
    refine rep.mutate (m := m) ?_
    rw [mutateOk, result]
    rfl

/-- Failing calls leave no trace along a run exactly if all its insertions are harmless, and
then every leaf is a vertex at all times. -/
theorem mutations_atomic {steps : List (DAG V × Mutation V)} {d : DAG V}
    (run : Run mutateAny new steps d) :
    (Meets Atomic steps ↔ Meets Harmless steps) ∧
      (Meets Harmless steps → ∀ s ∈ states steps d, ∀ order, ∀ v ∈ s.leaves order, v ∈ s.g) := by
  refine ⟨run.meets_iff Atomic Harmless Representation .new (fun _ _ _ rep => rep.mutateAny)
    fun _ m rep => atomic_iff_harmless rep.transposed m, fun harmless s state order v leaf => ?_⟩
  have all := run.relates Harmless harmless Representation (fun _ _ => True) .new
    (fun _ => trivial) (fun _ _ _ _ _ => trivial)
    fun _ _ _ rep safe taken => ⟨rep.mutateAny safe taken, trivial⟩
  have listed := (order.mem _ _).mp (List.mem_of_mem_filter leaf)
  rw [← (all.2 s state).1.keys] at listed
  exact Finmap.mem_keys.mp listed

instance (d : DAG V) (m : Mutation V) : Decidable (Harmless d m) :=
  match m with
  | .insertVx _ _ => inferInstanceAs (Decidable (_ ∨ _))
  | .removeVx _ => .isTrue trivial
  | .setChit _ _ => .isTrue trivial

/-- A vertex that is there is inserted again without parents, and a removal finds nothing. -/
theorem mutations_atomic_refusals :
    ∃ steps d, Run mutateAny (new : DAG Nat) steps d ∧
      steps.map Prod.snd = [.insertVx 0 [], .insertVx 1 [0], .insertVx 1 [], .removeVx 2] ∧
      Meets Atomic steps ∧ ∀ s ∈ states steps d, ∀ order, ∀ v ∈ s.leaves order, v ∈ s.g := by
  have found : (exec mutateAny (new : DAG Nat)
      [.insertVx 0 [], .insertVx 1 [0], .insertVx 1 [], .removeVx 2]).any fun r =>
      decide (r.1.map Prod.snd = [.insertVx 0 [], .insertVx 1 [0], .insertVx 1 [], .removeVx 2] ∧
        ∀ x ∈ r.1, Harmless x.1 x.2) := by
    decide +kernel
  obtain ⟨steps, d, run, facts⟩ := exec_any found
  obtain ⟨events, harmless⟩ := of_decide_eq_true facts
  have atomic := mutations_atomic run
  exact ⟨steps, d, run, events, atomic.1.mpr harmless, atomic.2 harmless⟩

/-- An insertion with an unknown parent fails, and its vertex is a leaf without being there. -/
theorem insertVx_leaves_phantom :
    ∃ d, (new : DAG Nat).insertVx 1 [0] = .err .vacantEntry d ∧ d.inv ≠ (new : DAG Nat).inv ∧
      (∀ order : Listing Nat, 1 ∈ d.leaves order) ∧ 1 ∉ d.g := by
  refine ⟨{ new with inv := (∅ : HashMap Nat (List Nat)).insert 1 [] }, ?_, ?_, ?_, ?_⟩
  · rfl
  · decide +kernel
  · intro order
    rw [leaves, List.mem_filter, order.mem]
    decide +kernel
  · exact Finmap.notMem_empty

end Subzero.DAG
