import Subzero.Sleet.Query

/-! Which transactions the acceptance loop marks: exactly the ripe ones that were
not accepted yet. Marks made on the way do not change later verdicts. -/
namespace Subzero.Sleet
variable {H : Type} [DecidableEq H] [Blake3 H]
variable {s s' t : Sleet H} {done new : List H} {hash : H} {memo : HashMap H Bool} {tx : Tx H}

def mark (st : TxStatus) (tx : Tx H) : Tx H := { tx with status := st }

omit [DecidableEq H] [Blake3 H] in
@[simp] theorem mark_comp_mark (st st' : TxStatus) :
    (mark st : Tx H → Tx H) ∘ mark st' = mark st := rfl

/-- `t` is `s` with the transactions of `new` marked as accepted. -/
structure Marked (s : Sleet H) (new : List H) (t : Sleet H) : Prop where
  dag : t.dag = s.dag
  conflictGraph : t.conflictGraph = s.conflictGraph
  txs : ∀ h, t.knownTxs.lookup h =
    if h ∈ new then (s.knownTxs.lookup h).map (mark .accepted) else s.knownTxs.lookup h
  known : ∀ h ∈ new, h ∈ s.knownTxs

/-- The ancestry of a transaction is final. -/
def Verdict (s : Sleet H) (h : H) : Prop := ∀ a ∈ s.dag.dfs h, s.Final a

instance (s : Sleet H) (h : H) : Decidable (s.Verdict h) :=
  inferInstanceAs (Decidable (∀ a ∈ s.dag.dfs h, s.Final a))

/-- The loop after the transactions `done`. -/
structure Looped (s : Sleet H) (done new : List H) (memo : HashMap H Bool) (t : Sleet H) :
    Prop where
  marked : Marked s new t
  memo : s.Remembers memo
  nodup : new.Nodup
  exactly : ∀ h, h ∈ new ↔ h ∈ done ∧ s.Verdict h ∧ s.knownTxs.status h ≠ some .accepted

section
omit [Blake3 H]

theorem Marked.status (marked : Marked s new t) (h : H) :
    t.knownTxs.status h = if h ∈ new then some .accepted else s.knownTxs.status h := by
  unfold TxDb.status
  rw [marked.txs]
  split
  · rename_i member
    obtain ⟨tx, found⟩ := Finmap.mem_iff.mp (marked.known h member)
    simp [found, mark]
  · rfl

/-- A marked transaction was final before, so verdicts are the same. -/
theorem Looped.verdict_iff (linked : s.dag.Linked) (inside : ∀ h ∈ done, h ∈ s.dag.g)
    (loop : Looped s done new memo t) (h : H) : t.Verdict h ↔ s.Verdict h := by
  have same : ∀ a, t.Final a ↔ s.Final a := by
    intro a
    by_cases member : a ∈ new
    · obtain ⟨listed, verdict, _⟩ := (loop.exactly a).mp member
      have before : s.Final a := verdict a (linked.self_mem_dfs (inside a listed))
      have after : t.Final a := Or.inl (by rw [loop.marked.status, if_pos member])
      exact iff_of_true after before
    · unfold Final
      rw [loop.marked.status, if_neg member, loop.marked.conflictGraph]
  unfold Verdict
  rw [loop.marked.dag]
  exact forall₂_congr fun a _ => same a

/-- A transaction that is not marked leaves the marks as they were. -/
theorem Looped.skip {memo memo' : HashMap H Bool} (loop : Looped s done new memo t)
    (sound : s.Remembers memo')
    (no : ¬ (s.Verdict hash ∧ s.knownTxs.status hash ≠ some .accepted)) :
    Looped s (done ++ [hash]) new memo' t := by
  refine ⟨loop.marked, sound, loop.nodup, fun h => ?_⟩
  rw [loop.exactly h, List.mem_append, List.mem_singleton]
  constructor
  · rintro ⟨listed, rest⟩
    exact ⟨Or.inl listed, rest⟩
  · rintro ⟨listed | rfl, rest⟩
    · exact ⟨listed, rest⟩
    · exact absurd rest no

/-- One more transaction is marked. -/
theorem Marked.push {db : TxDb H} (marked : Marked s new t) (unmarked : hash ∉ new)
    (written : t.knownTxs.setStatus hash .accepted = .ok db) (acceptedTxs : BoundedHashSet H) :
    Marked s (new ++ [hash]) { t with acceptedTxs := acceptedTxs, knownTxs := db } := by
  have stored : hash ∈ s.knownTxs := by
    obtain ⟨tx, found, _⟩ := TxDb.setStatus_ok written
    rw [marked.txs, if_neg unmarked] at found
    exact Finmap.mem_of_lookup_eq_some found
  refine ⟨marked.dag, marked.conflictGraph, fun h => ?_, fun h member => ?_⟩
  · rw [TxDb.setStatus_lookup written, marked.txs]
    by_cases hh : h = hash
    · subst hh
      simp only [unmarked, if_true, if_false, List.mem_append, List.mem_singleton, or_true]
      rfl
    · simp [hh]
  · rcases List.mem_append.mp member with member | member
    · exact marked.known h member
    · rw [List.mem_singleton.mp member]
      exact stored

theorem acceptRound_looped {s t t' : Sleet H} {done new new' : List H} {memo memo' : HashMap H Bool}
    (linked : s.dag.Linked) (inside : ∀ h ∈ done, h ∈ s.dag.g) (fresh : hash ∉ done)
    (loop : Looped s done new memo t)
    (round : acceptRound (new, memo, t) hash = some (new', memo', t')) :
    Looped s (done ++ [hash]) new' memo' t' := by
  have unmarked : hash ∉ new := fun member => fresh ((loop.exactly hash).mp member).1
  have status : t.knownTxs.status hash = s.knownTxs.status hash := by
    rw [loop.marked.status, if_neg unmarked]
  have remembers : t.Remembers memo := fun h b found =>
    (loop.memo h b found).trans (loop.verdict_iff linked inside h).symm
  unfold acceptRound at round
  simp only at round
  split at round
  · rename_i already
    cases round
    rw [accepted_iff, status] at already
    exact loop.skip loop.memo fun h => h.2 already
  · rename_i undecided
    rw [accepted_iff, status] at undecided
    have back : ∀ {b memo'}, t.isAcceptedMemo hash memo = some (b, memo') →
        (b = true ↔ s.Verdict hash) ∧ s.Remembers memo' := by
      intro b memo' verdict
      obtain ⟨iff, sound⟩ := isAcceptedMemo_verdict remembers verdict
      refine ⟨iff.trans (loop.verdict_iff linked inside hash), fun h c found => ?_⟩
      exact (sound h c found).trans (loop.verdict_iff linked inside h)
    split at round
    · cases round
    · rename_i memo₁ verdict
      cases round
      obtain ⟨iff, sound⟩ := back verdict
      exact loop.skip sound fun h => Bool.false_ne_true (iff.mpr h.1)
    · rename_i memo₁ verdict
      obtain ⟨iff, sound⟩ := back verdict
      split at round
      · rename_i acceptedTxs db inserted written
        cases round
        refine ⟨loop.marked.push unmarked written acceptedTxs, sound, ?_, fun h => ?_⟩
        · refine List.nodup_append.mpr ⟨loop.nodup, List.nodup_singleton _, ?_⟩
          rintro a ha b hb rfl
          rw [List.mem_singleton.mp hb] at ha
          exact unmarked ha
        · rw [List.mem_append, List.mem_append, List.mem_singleton, loop.exactly h]
          constructor
          · rintro (⟨listed, rest⟩ | rfl)
            · exact ⟨Or.inl listed, rest⟩
            · exact ⟨Or.inr rfl, iff.mp rfl, undecided⟩
          · rintro ⟨listed | rfl, rest⟩
            · exact Or.inl ⟨listed, rest⟩
            · exact Or.inr rfl
      · cases round

theorem acceptLoop_looped {s t t' : Sleet H} {l done new new' : List H}
    {memo memo' : HashMap H Bool} (linked : s.dag.Linked)
    (inside : ∀ h ∈ done ++ l, h ∈ s.dag.g) (nodup : (done ++ l).Nodup)
    (loop : Looped s done new memo t)
    (rounds : l.foldlM acceptRound (new, memo, t) = some (new', memo', t')) :
    Looped s (done ++ l) new' memo' t' := by
  induction l generalizing done new memo t with
  | nil => cases rounds; simpa using loop
  | cons a l ih =>
    obtain ⟨⟨new₁, memo₁, t₁⟩, round, rest⟩ := foldlM_cons_some.mp rounds
    have fresh : a ∉ done := by
      intro listed
      exact (List.nodup_append.mp nodup).2.2 a listed a List.mem_cons_self rfl
    have split : done ++ a :: l = (done ++ [a]) ++ l := by simp
    have next := acceptRound_looped linked
      (fun h hh => inside h (List.mem_append_left _ hh)) fresh loop round
    rw [split] at inside nodup ⊢
    exact ih inside nodup next rest

theorem computeAcceptedTxs_some (linked : s.dag.Linked)
    (done : s.computeAcceptedTxs hash = some (new, t)) :
    Marked s new t ∧ new.Nodup ∧ ∀ h, h ∈ new ↔
      h ∈ s.dag.dfs hash ∧ s.Verdict h ∧ s.knownTxs.status h ≠ some .accepted := by
  obtain ⟨⟨new', memo, t'⟩, rounds, eq⟩ := Option.map_eq_some_iff.mp done
  cases eq
  have start : Looped s [] [] ∅ s :=
    ⟨⟨rfl, rfl, by simp, by simp⟩, by simp [Remembers], List.nodup_nil, by simp⟩
  have loop := acceptLoop_looped linked (fun h hh => ?_) (linked.dfs_nodup hash) start rounds
  · exact ⟨loop.marked, loop.nodup, loop.exactly⟩
  · obtain ⟨root, path⟩ := linked.mem_dfs.mp hh
    exact linked.ancestor_mem root path

theorem dfs_congr {d d' : DAG H} (g : d'.g = d.g) (v : H) : d'.dfs v = d.dfs v := by
  unfold DAG.dfs
  rw [g]

end

/-- The acks carry more than the required weight. -/
def Succeeds (s : Sleet H) (acks : List (Response H)) : Prop :=
  ∃ os ∈ outcomes s.committee acks, ALPHA < sumOutcomes os

instance (s : Sleet H) (acks : List (Response H)) : Decidable (s.Succeeds acks) :=
  inferInstanceAs (Decidable (∃ os ∈ outcomes s.committee acks, _))

/-- The transactions accepted in `s'` are those of `new`, the edges are the same. -/
structure Passed (s : Sleet H) (root : H) (new : List H) (s' : Sleet H) : Prop where
  g : s'.dag.g = s.dag.g
  inv : s'.dag.inv = s.dag.inv
  txs : ∀ h, s'.knownTxs.lookup h =
    if h ∈ new then (s.knownTxs.lookup h).map (mark .accepted) else s.knownTxs.lookup h
  known : ∀ h ∈ new, h ∈ s.knownTxs
  nodup : new.Nodup
  exactly : ∀ h, h ∈ new ↔ s.Ripe root h ∧ s.knownTxs.status h ≠ some .accepted
  retuned : s.conflictGraph.Retuned s'.conflictGraph

theorem passQuery_some (linked : s.dag.Linked) (done : s.passQuery tx = some (new, s')) :
    Passed s tx.hash new s' := by
  unfold passQuery at done
  split at done
  · cases done
  · rename_i d chit
    obtain ⟨g, inv⟩ := DAG.setChit_edges (congrArg Outcome.state? (Outcome.unwrap_eq_some.mp chit))
    split at done
    · cases done
    · rename_i s₁ updated
      have linked_d : d.Linked := linked.of_edges g inv
      have retuned : s.conflictGraph.Retuned s₁.conflictGraph :=
        forEach_graphs (s := { s with dag := d }) .refl .trans updatePreference_retuned updated
      obtain ⟨cs, rfl, touched, _⟩ := updateLoop_ok (linked_d.dfs_nodup tx.hash)
        (Outcome.unwrap_eq_some.mp updated)
      split at done
      · cases done
      · rename_i live _
        obtain ⟨marked, nodup, exactly⟩ := computeAcceptedTxs_some linked_d done
        refine ⟨by rw [marked.dag]; exact g, by rw [marked.dag]; exact inv, marked.txs,
          marked.known, nodup, fun h => (exactly h).trans ?_, ?_⟩
        swap
        · rw [marked.conflictGraph]
          exact retuned
        have dfs : ∀ v, d.dfs v = s.dag.dfs v := dfs_congr g
        have final : ∀ a ∈ d.dfs tx.hash, ({ ({ s with dag := d } : Sleet H).withSets cs with
            liveCells := live } : Sleet H).Final a ↔ s.NearlyFinal a := fun a ha =>
          final_withSets_iff (touched a ha)
        have verdict : h ∈ d.dfs tx.hash → (({ ({ s with dag := d } : Sleet H).withSets cs with
            liveCells := live } : Sleet H).Verdict h ↔ ∀ a ∈ s.dag.dfs h, s.NearlyFinal a) := by
          intro member
          rw [← dfs h]
          exact forall₂_congr fun a ha => final a (linked_d.dfs_subset member ha)
        unfold Ripe
        rw [and_assoc, ← dfs tx.hash]
        exact and_congr_right fun member => and_congr (verdict member) Iff.rfl

omit [Blake3 H] in
theorem markQueried_some (done : s.markQueried hash = some s') :
    hash ∈ s.knownTxs ∧ s'.dag = s.dag ∧ s'.conflictGraph = s.conflictGraph ∧
      ∀ h, s'.knownTxs.lookup h =
        if h = hash then (s.knownTxs.lookup h).map (mark .queried) else s.knownTxs.lookup h := by
  unfold markQueried at done
  split at done
  · rename_i db written
    cases done
    obtain ⟨tx, found, _⟩ := TxDb.setStatus_ok written
    exact ⟨Finmap.mem_of_lookup_eq_some found, rfl, rfl, TxDb.setStatus_lookup written⟩
  · cases done

/-- A completed query accepts the transactions of `new`, and then writes the
status of the queried one, whatever it was. -/
structure Completed (s : Sleet H) (root : H) (new : List H) (s' : Sleet H) : Prop where
  g : s'.dag.g = s.dag.g
  inv : s'.dag.inv = s.dag.inv
  stored : root ∈ s.knownTxs
  known : ∀ h ∈ new, h ∈ s.knownTxs
  txs : ∀ h, s'.knownTxs.lookup h =
    if h = root then (s.knownTxs.lookup h).map (mark .queried)
    else if h ∈ new then (s.knownTxs.lookup h).map (mark .accepted)
    else s.knownTxs.lookup h
  retuned : s.conflictGraph.Retuned s'.conflictGraph

omit [Blake3 H] in
/-- What is accepted after a query was accepted before or is new. The queried transaction is
left as queried. -/
theorem Completed.accepted {root h : H} (done : Completed s root new s')
    (found : s'.knownTxs.lookup h = some tx) (accepted : tx.status = .accepted) :
    h ≠ root ∧ (h ∉ new → s.knownTxs.lookup h = some tx) ∧
      (h ∈ new → ∃ old, s.knownTxs.lookup h = some old ∧ tx = mark .accepted old) := by
  rw [done.txs] at found
  have ne : h ≠ root := by
    intro eq
    rw [if_pos eq] at found
    obtain ⟨old, _, rfl⟩ := Option.map_eq_some_iff.mp found
    cases accepted
  rw [if_neg ne] at found
  refine ⟨ne, fun old => by rwa [if_neg old] at found, fun member => ?_⟩
  rw [if_pos member] at found
  obtain ⟨old, known, rfl⟩ := Option.map_eq_some_iff.mp found
  exact ⟨old, known, rfl⟩

omit [Blake3 H] in
theorem failQuery_completed {s s₁ s' : Sleet H} (failed : s.failQuery hash = some s₁)
    (marked : s₁.markQueried hash = some s') : Completed s hash [] s' := by
  have retuned := failQuery_retuned failed
  obtain ⟨cs, rfl⟩ := failQuery_some failed
  obtain ⟨stored, dag, sets, txs⟩ := markQueried_some marked
  refine ⟨by rw [dag]; rfl, by rw [dag]; rfl, stored, by simp, fun h => ?_, sets ▸ retuned⟩
  rw [txs]
  simp [withSets]

theorem queryIncomplete_completed (done : s.queryIncomplete tx = some s') :
    Completed s tx.hash [] s' := by
  obtain ⟨s₁, failed, marked⟩ := Option.bind_eq_some_iff.mp done
  exact failQuery_completed failed marked

theorem queryComplete_completed {acks : List (Response H)} (linked : s.dag.Linked)
    (done : s.queryComplete tx acks = some (new, s')) :
    Completed s tx.hash new s' ∧ new.Nodup ∧ ∀ h, h ∈ new ↔
      s.Succeeds acks ∧ s.Ripe tx.hash h ∧ s.knownTxs.status h ≠ some .accepted := by
  unfold queryComplete at done
  unfold Succeeds
  split at done
  · cases done
  · rename_i os counted
    simp only [counted, Option.mem_def, Option.some.injEq, exists_eq_left']
    split at done
    · rename_i enough
      obtain ⟨⟨new₁, s₁⟩, passed, rest⟩ := Option.bind_eq_some_iff.mp done
      obtain ⟨s₂, marked, eq⟩ := Option.map_eq_some_iff.mp rest
      cases eq
      have pass := passQuery_some linked passed
      obtain ⟨stored, dag, sets, txs⟩ := markQueried_some marked
      have root_known : tx.hash ∈ s.knownTxs := by
        rw [← Finmap.lookup_isSome, pass.txs] at stored
        rw [← Finmap.lookup_isSome]
        split at stored
        · simpa using stored
        · exact stored
      refine ⟨⟨by rw [dag, pass.g], by rw [dag, pass.inv], root_known, pass.known, fun h => ?_,
        sets ▸ pass.retuned⟩, pass.nodup, fun h => by simp only [enough, true_and, pass.exactly]⟩
      rw [txs, pass.txs]
      by_cases root : h = tx.hash
      · subst root
        by_cases member : tx.hash ∈ new <;> simp [member]
      · simp [root]
    · rename_i few
      obtain ⟨s₁, failed, rest⟩ := Option.bind_eq_some_iff.mp done
      obtain ⟨s₂, marked, eq⟩ := Option.map_eq_some_iff.mp rest
      cases eq
      exact ⟨failQuery_completed failed marked, List.nodup_nil, by simp [few]⟩

end Subzero.Sleet
