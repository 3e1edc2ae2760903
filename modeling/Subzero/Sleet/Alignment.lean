import Subzero.Graph.Conviction
import Subzero.Graph.Preference
import Subzero.Sleet.DoubleSpend
import Subzero.Sleet.Selection
import Subzero.Sleet.Trim

/-! Whether the DAG and the conflict graph fit each other. The handlers take for granted
that every vertex has a conflict set and that the preferred transaction is a vertex, but
vertices come from a frontier without a set, and a preferred transaction can leave the DAG
while a set still names it. -/
namespace Subzero.Sleet
variable {H : Type} [DecidableEq H] [Blake3 H]

structure Aligned (d : DAG H) (c : ConflictGraph H) : Prop where
  transposed : d.Transposed
  consistent : c.Consistent
  sets : ∀ v ∈ d.g, ∃ set, c.cs.lookup v = some set ∧ set.pref ∈ d.g
  chits : ∀ v ∈ d.g, v ∈ d.chits
  bits : ∀ v n, d.chits.lookup v = some n → n ≤ 1

/-- Vertices that may come without a transaction: they have a conflict set already. -/
def Anchored (added : Finset H) (d : DAG H) (c : ConflictGraph H) : Prop :=
  ∀ v ∈ added, ∃ set, c.cs.lookup v = some set ∧ (set.pref ∈ d.g ∨ set.pref = v)

/-- Sets stay, and turn to nobody but their own transaction. -/
def Leans (c c' : ConflictGraph H) : Prop :=
  ∀ k set, c.cs.lookup k = some set →
    ∃ set', c'.cs.lookup k = some set' ∧ (set'.pref = set.pref ∨ set'.pref = k)

section
omit [Blake3 H]
variable {d d' : DAG H} {c c' c'' : ConflictGraph H} {added : Finset H}

theorem Leans.of_cs (same : c'.cs = c.cs) : Leans c c' := fun _ set found =>
  ⟨set, same ▸ found, .inl rfl⟩

theorem Leans.trans (first : Leans c c') (second : Leans c' c'') : Leans c c'' := by
  intro k set found
  obtain ⟨set₁, found₁, pref₁⟩ := first k set found
  obtain ⟨set₂, found₂, same | own⟩ := second k set₁ found₁
  · exact ⟨set₂, found₂, same ▸ pref₁⟩
  · exact ⟨set₂, found₂, .inr own⟩

theorem Anchored.mono (anchored : Anchored added d c) (vertices : ∀ v ∈ d.g, v ∈ d'.g)
    (leans : Leans c c') : Anchored added d' c' := by
  intro v member
  obtain ⟨set, found, anchor⟩ := anchored v member
  obtain ⟨set', found', same | own⟩ := leans v set found
  · exact ⟨set', found', same ▸ anchor.imp (vertices _) id⟩
  · exact ⟨set', found', .inr own⟩

end

section Aligned
variable {d d' : DAG H} {c c' : ConflictGraph H} {added : Finset H}

theorem Aligned.linked (aligned : Aligned d c) : d.Linked :=
  aligned.transposed.mirrored.toLinked

theorem Aligned.dfs_mem (aligned : Aligned d c) {root v : H} (member : v ∈ d.dfs root) :
    v ∈ d.g := by
  obtain ⟨present, path⟩ := aligned.linked.mem_dfs.mp member
  exact aligned.linked.ancestor_mem present path

theorem Aligned.leans (aligned : Aligned d c) (consistent : c'.Consistent) (leans : Leans c c') :
    Aligned d c' := by
  refine ⟨aligned.transposed, consistent, fun v present => ?_, aligned.chits, aligned.bits⟩
  obtain ⟨set, found, inside⟩ := aligned.sets v present
  obtain ⟨set', found', same | own⟩ := leans v set found
  · exact ⟨set', found', same ▸ inside⟩
  · exact ⟨set', found', own ▸ present⟩

theorem Aligned.setChit (aligned : Aligned d c) {vx : H} {chit : Nat} (bit : chit ≤ 1)
    (left : (d.setChit vx chit).state? = some d') : Aligned d' c := by
  obtain ⟨g, inv⟩ := DAG.setChit_edges left
  have lookup := DAG.setChit_lookup left
  refine ⟨aligned.transposed.of_edges g inv, aligned.consistent, by rw [g]; exact aligned.sets,
    fun v present => ?_, fun v n found => ?_⟩
  · rw [g] at present
    obtain ⟨n, known⟩ := Finmap.mem_iff.mp (aligned.chits v present)
    rcases lookup v with same | new
    · exact Finmap.mem_of_lookup_eq_some (same.trans known)
    · exact Finmap.mem_of_lookup_eq_some new
  · rcases lookup v with same | new
    · exact aligned.bits v n (same ▸ found)
    · cases new.symm.trans found
      exact bit

theorem Aligned.enter (aligned : Aligned d c) (consistent : c'.Consistent) (leans : Leans c c')
    {vx : H} {edges : List H} (fresh : vx ∉ d.g) (inside : ∀ e ∈ edges, e ∈ d.g)
    (own : Anchored {vx} d c') (left : (d.insertVx vx edges).state? = some d') :
    Aligned d' c' ∧ ∀ v ∈ d.g, v ∈ d'.g := by
  obtain ⟨transposed, g, others, chit⟩ := aligned.transposed.insertVx fresh inside left
  have aligned' := aligned.leans consistent leans
  have vertices : ∀ v ∈ d.g, v ∈ d'.g := fun v present => g ▸ Finmap.mem_insert.mpr (.inr present)
  have here : vx ∈ d'.g := g ▸ Finmap.mem_insert.mpr (.inl rfl)
  refine ⟨⟨transposed, consistent, fun v present => ?_, fun v present => ?_, fun v n found => ?_⟩,
    vertices⟩
  · rw [g, Finmap.mem_insert] at present
    rcases present with rfl | old
    · obtain ⟨set, found, there | self⟩ := own v (Finset.mem_singleton_self v)
      · exact ⟨set, found, vertices _ there⟩
      · exact ⟨set, found, self ▸ here⟩
    · obtain ⟨set, found, there⟩ := aligned'.sets v old
      exact ⟨set, found, vertices _ there⟩
  · by_cases new : v = vx
    · subst new
      exact chit.elim Finmap.mem_of_lookup_eq_some Finmap.mem_of_lookup_eq_some
    · rw [g, Finmap.mem_insert, or_iff_right new] at present
      rw [← Finmap.lookup_isSome, others v new, Finmap.lookup_isSome]
      exact aligned.chits v present
  · by_cases new : v = vx
    · subst new
      rcases chit with zero | one
      · cases zero.symm.trans found
        exact Nat.zero_le 1
      · cases one.symm.trans found
        exact Nat.le_refl 1
    · exact aligned.bits v n (others v new ▸ found)

theorem Aligned.bares (bares : Bares added d d') (aligned : Aligned d c)
    (anchored : Anchored added d c) : Aligned d' c ∧ ∀ v ∈ d.g, v ∈ d'.g := by
  induction bares with
  | refl => exact ⟨aligned, fun _ => id⟩
  | @tail d₁ d₂ _ round ih =>
    obtain ⟨aligned₁, vertices⟩ := ih
    obtain ⟨v, listed, left | left⟩ := round
    · by_cases present : v ∈ d₁.g
      · have entry : DAG.withEntry v d₁.inv = d₁.inv :=
          if_pos ((aligned₁.transposed.keys v).mp present)
        simp only [DAG.insertVx, HashMap.updateKeys, present, if_true, entry] at left
        cases left
        exact ⟨aligned₁, vertices⟩
      · have own : Anchored {v} d₁ c := by
          intro x here
          obtain rfl := Finset.mem_singleton.mp here
          exact anchored.mono vertices (.of_cs rfl) x listed
        obtain ⟨aligned₂, vertices₂⟩ :=
          aligned₁.enter aligned₁.consistent (.of_cs rfl) present (by simp) own left
        exact ⟨aligned₂, fun x hx => vertices₂ x (vertices x hx)⟩
    · rw [(DAG.setChit_edges left).1]
      exact ⟨aligned₁.setChit (Nat.le_refl 1) left, vertices⟩

end Aligned

section Receive
variable {order : HashOrder H} {s s' : Sleet H} {tx : Tx H} {added : Finset H}

theorem inserted_leans {c c' : ConflictGraph H} {cell : Cell H} (consistent : c.Consistent)
    (inserted : c.Inserted cell c') : Leans c c' := by
  intro k set found
  have other : k ≠ cell.hash := by
    rintro rfl
    exact inserted.fresh (consistent.cs_cells _ (Finmap.mem_of_lookup_eq_some found))
  have lookup := inserted.cs k
  rw [if_neg other, found] at lookup
  split at lookup
  · exact ⟨_, lookup, .inl rfl⟩
  · exact ⟨_, lookup, .inl rfl⟩

/-- What is received finds the transaction preferred by its first conflict in the DAG. -/
def Placed (s : Sleet H) (tx : Tx H) : Prop :=
  s.Insertable tx → ∀ set ∈ s.conflictGraph.firstConflict tx.cell, set.pref ∈ s.dag.g

theorem Aligned.receive (injective : Function.Injective (Cell.hash : Cell H → H))
    (aligned : Aligned s.dag s.conflictGraph) (placed : s.Placed tx)
    (left : (s.onReceiveTx order tx).state? = some s') :
    Aligned s'.dag s'.conflictGraph ∧ (∀ v ∈ s.dag.g, v ∈ s'.dag.g) ∧
      Leans s.conflictGraph s'.conflictGraph := by
  have stored := aligned.consistent.cs_cells
  have enters : s.Insertable tx → ∀ {c : ConflictGraph H} {d : DAG H},
      s.conflictGraph.insertCell order tx.cell = .ok () c →
      (s.dag.insertVx tx.hash (s.removeAcceptedParents tx.parents)).state? = some d →
      Aligned d c ∧ (∀ v ∈ s.dag.g, v ∈ d.g) ∧ Leans s.conflictGraph c := by
    intro insertable c d conflict vertex
    have inserted := ConflictGraph.insertCell_inserted stored conflict
    have leans := inserted_leans aligned.consistent inserted
    have fresh : tx.hash ∉ s.dag.g := by
      intro present
      obtain ⟨set, found, _⟩ := aligned.sets _ present
      exact inserted.fresh (stored _ (Finmap.mem_of_lookup_eq_some found))
    have own : Anchored {tx.hash} s.dag c := by
      intro v here
      obtain rfl := Finset.mem_singleton.mp here
      refine ⟨_, (inserted.cs _).trans (if_pos rfl), ?_⟩
      unfold ConflictGraph.freshSet
      cases first : s.conflictGraph.firstConflict tx.cell with
      | none => exact .inr rfl
      | some set => exact .inl (placed insertable set first)
    obtain ⟨aligned', vertices⟩ := aligned.enter (inserted.consistent aligned.consistent) leans
      fresh (hasParents_inside insertable.parents) own vertex
    exact ⟨aligned', vertices, leans⟩
  have receipt := onReceiveTx_receipt order s tx
  generalize s.onReceiveTx order tx = out at receipt left
  cases receipt with
  | refused e => cases left; exact ⟨aligned, fun _ => id, .of_cs rfl⟩
  | known found alive => cases left; exact ⟨aligned, fun _ => id, .of_cs rfl⟩
  | conflicts insertable conflict =>
    cases left
    have refused := ConflictGraph.insertCell_refused stored conflict
    have leans := Leans.of_cs refused.cs
    exact ⟨aligned.leans (refused.consistent injective aligned.consistent) leans, fun _ => id,
      leans⟩
  -- the cell is in the conflict graph already when the DAG refuses the vertex
  | vertex insertable conflict vertex =>
    cases left
    exact enters insertable conflict (congrArg Outcome.state? vertex)
  | stored insertable conflict vertex =>
    cases left
    exact enters insertable conflict (congrArg Outcome.state? vertex)
  | panic => cases left

theorem Takes.aligned (injective : Function.Injective (Cell.hash : Cell H → H))
    {rs : List (Sleet H × Tx H)} (takes : Takes added s rs s')
    (aligned : Aligned s.dag s.conflictGraph) (anchored : Anchored added s.dag s.conflictGraph)
    (placed : ∀ r ∈ rs, r.1.Placed r.2) : Aligned s'.dag s'.conflictGraph := by
  induction takes with
  | done => exact aligned
  | @aside s s₁ s₂ rs step _ ih =>
    obtain ⟨aligned₁, vertices⟩ := aligned.bares step.bares anchored
    have leans : Leans s.conflictGraph s₁.conflictGraph ∧ s₁.conflictGraph.Consistent := by
      rcases step.graph with same | ⟨order, ids, grown⟩
      · exact ⟨.of_cs (by rw [same]), same ▸ aligned.consistent⟩
      · exact ⟨.of_cs (by rw [grown]; rfl),
          grown ▸ ConflictGraph.append_consistent order ids aligned.consistent⟩
    exact ih (aligned₁.leans leans.2 leans.1) (anchored.mono vertices leans.1) placed
  | receive left _ ih =>
    obtain ⟨aligned₁, vertices, leans⟩ :=
      aligned.receive injective (placed _ List.mem_cons_self) left
    exact ih aligned₁ (anchored.mono vertices leans) fun r hr =>
      placed r (List.mem_cons_of_mem _ hr)

/-- The states in which a list of transactions is received. -/
theorem Aligned.receipts (injective : Function.Injective (Cell.hash : Cell H → H))
    {txs : List (Tx H)} (aligned : Aligned s.dag s.conflictGraph)
    (placed : ∀ r ∈ receipts order txs s, r.1.Placed r.2) :
    ∀ r ∈ receipts order txs s, Aligned r.1.dag r.1.conflictGraph := by
  induction txs generalizing s with
  | nil => simp [Sleet.receipts]
  | cons tx txs ih =>
    rw [Sleet.receipts] at placed ⊢
    obtain ⟨first, later⟩ := List.forall_mem_cons.mp placed
    refine List.forall_mem_cons.mpr ⟨aligned, ?_⟩
    split
    · rename_i s₁ left
      rw [left] at later
      exact ih (aligned.receive injective first left).1 later
    · simp

end Receive

section Query
variable {s s' : Sleet H} {tx : Tx H}

omit [Blake3 H] in
theorem mutateSet_leans {c c' : ConflictGraph H} {hash : H} {f : ConflictSet H → ConflictSet H}
    (turns : ∀ set, (f set).pref = set.pref ∨ (f set).pref = hash)
    (left : (c.mutateSet hash f).state? = some c') : Leans c c' := by
  rcases ConflictGraph.mutateSet_cases left with ⟨rfl, _⟩ | ⟨set, known, rfl, _⟩
  · exact .of_cs rfl
  · intro k old found
    simp only [HashMap.lookup_insert_ite]
    by_cases here : k = hash
    · subst here
      obtain rfl : set = old := Option.mem_unique known found
      exact ⟨f set, if_pos rfl, turns set⟩
    · exact ⟨old, by rw [if_neg here, found], .inl rfl⟩

omit [Blake3 H] in
theorem updatePreference_leans {hash : H} (left : (updatePreference hash s).state? = some s') :
    Leans s.conflictGraph s'.conflictGraph := by
  rcases updatePreference_graph left with same | ⟨d1, d2, updated⟩
  · exact .of_cs (congrArg ConflictGraph.cs same)
  · refine mutateSet_leans (fun set => ?_) updated
    rw [ConflictGraph.update_pref]
    split
    · exact .inr rfl
    · exact .inl rfl

theorem Aligned.failQuery {hash : H} (aligned : Aligned s.dag s.conflictGraph)
    (done : s.failQuery hash = some s') : Aligned s'.dag s'.conflictGraph := by
  have consistent := (failQuery_retuned done).consistent aligned.consistent
  have dag : s'.dag = s.dag := by
    obtain ⟨cs, rfl⟩ := failQuery_some done
    rfl
  rw [dag]
  refine aligned.leans consistent ?_
  obtain ⟨⟨_, s₁⟩, unwrapped, rfl⟩ := Option.map_eq_some_iff.mp done
  refine forEach_graphs (fun _ => .of_cs rfl) .trans (fun round => ?_) unwrapped
  rw [Outcome.state?_lift] at round
  obtain ⟨c, reset, rfl⟩ := Option.map_eq_some_iff.mp round
  refine mutateSet_leans (fun _ => ?_) reset
  exact .inl rfl

theorem Aligned.passQuery {new : List H} (aligned : Aligned s.dag s.conflictGraph)
    (done : s.passQuery tx = some (new, s')) : Aligned s'.dag s'.conflictGraph := by
  have consistent := (passQuery_some aligned.linked done).retuned.consistent aligned.consistent
  unfold Sleet.passQuery at done
  split at done
  · cases done
  · rename_i d chit
    have voted := aligned.setChit (Nat.le_refl 1)
      (congrArg Outcome.state? (Outcome.unwrap_eq_some.mp chit))
    split at done
    · cases done
    · rename_i s₁ updated
      have leans : Leans s.conflictGraph s₁.conflictGraph :=
        forEach_graphs (s := { s with dag := d }) (fun _ => .of_cs rfl) .trans
          updatePreference_leans updated
      obtain ⟨cs, rfl, _⟩ := updateLoop_ok (voted.linked.dfs_nodup tx.hash)
        (Outcome.unwrap_eq_some.mp updated)
      split at done
      · cases done
      · obtain ⟨marked, _⟩ := computeAcceptedTxs_some voted.linked done
        rw [marked.dag]
        rw [marked.conflictGraph] at consistent ⊢
        exact voted.leans consistent leans

theorem Aligned.queryComplete {acks : List (Response H)} {new : List H}
    (aligned : Aligned s.dag s.conflictGraph)
    (done : s.queryComplete tx acks = some (new, s')) : Aligned s'.dag s'.conflictGraph := by
  unfold Sleet.queryComplete at done
  split at done
  · cases done
  · split at done
    · obtain ⟨⟨new₁, s₁⟩, passed, rest⟩ := Option.bind_eq_some_iff.mp done
      obtain ⟨s₂, marked, eq⟩ := Option.map_eq_some_iff.mp rest
      cases eq
      obtain ⟨_, dag, sets, _⟩ := markQueried_some marked
      rw [dag, sets]
      exact aligned.passQuery passed
    · obtain ⟨s₁, failed, rest⟩ := Option.bind_eq_some_iff.mp done
      obtain ⟨s₂, marked, eq⟩ := Option.map_eq_some_iff.mp rest
      cases eq
      obtain ⟨_, dag, sets, _⟩ := markQueried_some marked
      rw [dag, sets]
      exact aligned.failQuery failed

theorem Aligned.queryIncomplete (aligned : Aligned s.dag s.conflictGraph)
    (done : s.queryIncomplete tx = some s') : Aligned s'.dag s'.conflictGraph := by
  obtain ⟨s₁, failed, marked⟩ := Option.bind_eq_some_iff.mp done
  obtain ⟨_, dag, sets, _⟩ := markQueried_some marked
  rw [dag, sets]
  exact aligned.failQuery failed

end Query

/-- The condition on a `NewAccepted` message. The conflicts that it rejects are stored and
in the DAG, it takes out none of its own transactions, and no vertex that stays prefers
another one that is taken out or pruned. -/
structure Tidy (s : Sleet H) (hashes : List H) : Prop where
  there : ∀ r, s.Rejects hashes r → r ∈ s.knownTxs ∧ r ∈ s.dag.g
  apart : ∀ t ∈ hashes, ¬ s.Swept hashes t
  prefs : ∀ v ∈ s.dag.g, v ∉ hashes → ¬ s.Rejects hashes v →
    ∀ set ∈ s.conflictGraph.cs.lookup v, set.pref = v ∨
      ¬ s.Swept hashes set.pref ∧ ¬ s.Settled hashes set.pref

theorem Aligned.newAccepted (injective : Function.Injective (Cell.hash : Cell H → H))
    {order : HashOrder H} {s s' : Sleet H} {hashes : List H} {cells : List (Cell H)}
    (keyed : s.Keyed) (aligned : Aligned s.dag s.conflictGraph) (tidy : s.Tidy hashes)
    (done : s.newAccepted order hashes = some (cells, s')) :
    Aligned s'.dag s'.conflictGraph := by
  obtain ⟨s₁, forwarded, pruned, sweep, _⟩ := newAccepted_sweep order keyed done
  obtain ⟨W, trims, wins⟩ := forwardCells_trims order injective keyed aligned.transposed
    aligned.consistent tidy.there forwarded
  have transposed₁ := trims.dag.transposed aligned.transposed
  obtain ⟨P, cut, chits⟩ := prune_cut transposed₁ pruned
  rw [sweep.chits] at chits
  have before : ∀ v ∈ s'.dag.g, v ∈ s.dag.g ∧ v ∉ W := fun v present =>
    trims.dag.g.mem.mp (cut.g.mem.mp present).1
  -- what is not swept and has a set is not taken out
  have kept : ∀ v ∈ s.conflictGraph.cs, ¬ s.Swept hashes v → v ∉ W := fun v seated unswept =>
    ((trims.mem v).mp (sweep.sets.keeps v seated unswept)).2
  rw [(prune_some order pruned).2.1]
  refine ⟨cut.transposed transposed₁, sweep.calls.consistent aligned.consistent,
    fun v present => ?_, fun v present => ?_, by rw [chits]; exact aligned.bits⟩
  · obtain ⟨old, outside⟩ := before v present
    obtain ⟨set, found, inside⟩ := aligned.sets v old
    obtain ⟨set₁, found₁⟩ :=
      Finmap.mem_iff.mp ((trims.mem v).mpr ⟨Finmap.mem_of_lookup_eq_some found, outside⟩)
    refine ⟨set₁, found₁, ?_⟩
    obtain ⟨set₀, found₀, own | same, _⟩ := trims.sets v set₁ found₁
    · rw [own]
      exact present
    · obtain rfl : set = set₀ := Option.mem_unique found found₀
      -- a vertex of the message prefers itself now; for the others the condition applies
      by_cases listed : v ∈ hashes
      · rw [(wins v listed outside set found).2 set₁ found₁]
        exact present
      · have stays : ¬ s.Rejects hashes v := by
          rintro ⟨t, accepted, set_t, found_t, conflict, ne⟩
          have winner := kept t (Finmap.mem_of_lookup_eq_some found_t) (tidy.apart t accepted)
          exact outside ((wins t accepted winner set_t found_t).1
            (Finset.mem_erase.mpr ⟨ne, conflict⟩))
        rw [same]
        rcases tidy.prefs v old listed stays set found with self | ⟨unswept, open_⟩
        · rw [self]
          exact present
        · obtain ⟨other, seated, _⟩ := aligned.sets _ inside
          have still := trims.dag.g.mem.mpr
            ⟨inside, kept _ (Finmap.mem_of_lookup_eq_some seated) unswept⟩
          by_contra gone
          obtain ⟨f, _, member, final⟩ := prune_removed pruned still gone
          exact open_ (sweep.final_settled (final _ member)).2
  · rw [chits]
    exact aligned.chits v (before v present).1

section Unwrap
variable {s : Sleet H}

theorem Aligned.isStronglyPreferred (aligned : Aligned s.dag s.conflictGraph) (hash : H) :
    ∃ b, s.isStronglyPreferred hash = .ok b := by
  refine allPreferred_ok fun v member => ?_
  obtain ⟨set, found, _⟩ := aligned.sets v (aligned.dfs_mem member)
  exact Finmap.mem_of_lookup_eq_some found

omit [Blake3 H] in
theorem mutateSet_known {c : ConflictGraph H} {hash : H} {f : ConflictSet H → ConflictSet H}
    {set : ConflictSet H} (found : c.cs.lookup hash = some set) :
    c.mutateSet hash f = .ok () { c with cs := c.cs.insert hash (f set) } := by
  have some_set : 0 < c.cs.keys.card :=
    Finset.card_pos.mpr ⟨hash, HashMap.mem_keys_of_lookup found⟩
  simp only [ConflictGraph.mutateSet, some_set, if_true, found]

omit [Blake3 H] in
theorem resetLoop_ok {l : List H} {s : Sleet H} (seated : ∀ h ∈ l, h ∈ s.conflictGraph.cs) :
    ∃ s', Outcome.forEach (fun hash (s : Sleet H) => (s.conflictGraph.resetCount hash).lift
      SleetError.graph fun c => { s with conflictGraph := c }) l s = .ok () s' := by
  induction l generalizing s with
  | nil => exact ⟨s, rfl⟩
  | cons a l ih =>
    obtain ⟨first, later⟩ := List.forall_mem_cons.mp seated
    obtain ⟨set, found⟩ := Finmap.mem_iff.mp first
    simp only [Outcome.forEach, ConflictGraph.resetCount, mutateSet_known found, Outcome.lift,
      Outcome.bind_ok]
    exact ih fun h member => Finmap.mem_insert.mpr (.inr (later h member))

theorem Aligned.resetAncestorConfidence (aligned : Aligned s.dag s.conflictGraph) (root : H) :
    ∃ s', s.resetAncestorConfidence root = .ok () s' := by
  refine resetLoop_ok fun v member => ?_
  obtain ⟨set, found, _⟩ := aligned.sets v (aligned.dfs_mem member)
  exact Finmap.mem_of_lookup_eq_some found

omit [Blake3 H] in
/-- The update needs the convictions of the listed transactions and of those that their
sets prefer. A round may turn a set to its own transaction. -/
theorem updateLoop_total {l : List H} {s : Sleet H}
    (convinced : ∀ v ∈ l, ∃ set, s.conflictGraph.cs.lookup v = some set ∧
      (∃ n, s.dag.conviction v = some (.ok n)) ∧ ∃ n, s.dag.conviction set.pref = some (.ok n)) :
    ∃ s', Outcome.forEach updatePreference l s = .ok () s' := by
  induction l generalizing s with
  | nil => exact ⟨s, rfl⟩
  | cons a l ih =>
    obtain ⟨⟨set, found, ⟨d1, own⟩, ⟨d2, preferred⟩⟩, later⟩ := List.forall_mem_cons.mp convinced
    have round : updatePreference a s =
        .ok () (s.withSets (s.conflictGraph.cs.insert a (set.update a d1 d2))) := by
      simp only [updatePreference, ConflictGraph.getPreferred, found, own, preferred,
        ConflictGraph.updateConflictSet, mutateSet_known found, Outcome.lift]
      rfl
    rw [Outcome.forEach, round, Outcome.bind_ok]
    refine ih fun v member => ?_
    obtain ⟨old, known, here, there⟩ := later v member
    simp only [withSets, HashMap.lookup_insert_ite]
    by_cases same : v = a
    · subst same
      refine ⟨_, if_pos rfl, here, ?_⟩
      rw [ConflictGraph.update_pref]
      split
      · exact here
      · exact ⟨d2, preferred⟩
    · exact ⟨old, by rw [if_neg same, known], here, there⟩

/-- The condition on a query that gets its votes: the transaction has no chit yet, and
the convictions that are compared still fit a `u8` with the new chit. -/
structure Votable (s : Sleet H) (root : H) : Prop where
  unset : s.dag.chits.lookup root ≠ some 1
  fits : ∀ v ∈ s.dag.dfs root, ∀ set ∈ s.conflictGraph.cs.lookup v, ∀ x, x = v ∨ x = set.pref →
    s.dag.weight x + (if root ∈ s.dag.progeny x then 1 else 0) < 2 ^ 8

theorem Aligned.updateAncestralPreference (aligned : Aligned s.dag s.conflictGraph) {root : H}
    (votable : s.Votable root) :
    ∃ d s', s.dag.setChit root 1 = .ok () d ∧
      { s with dag := d }.updateAncestralPreference root = .ok () s' := by
  obtain ⟨d, voted⟩ : ∃ d, s.dag.setChit root 1 = .ok () d := by
    unfold DAG.setChit
    split
    · rename_i old found
      split
      · rename_i one
        exact absurd (one ▸ found) votable.unset
      · exact ⟨_, rfl⟩
    · exact ⟨_, rfl⟩
  obtain ⟨g, _⟩ := DAG.setChit_edges (congrArg Outcome.state? voted)
  have aligned' := aligned.setChit (Nat.le_refl 1) (congrArg Outcome.state? voted)
  have mirrored := aligned'.transposed.mirrored
  have convinced : ∀ x ∈ s.dag.g,
      s.dag.weight x + (if root ∈ s.dag.progeny x then 1 else 0) < 2 ^ 8 →
        ∃ n, d.conviction x = some (.ok n) := by
    intro x present fits
    rw [← g] at present
    rw [← DAG.weight_setChit aligned.bits voted] at fits
    refine ⟨d.weight x, ?_⟩
    rw [mirrored.conviction_eq (mirrored.entry x present) fun y member =>
      aligned'.chits y (mirrored.progeny_mem present member), if_pos fits]
  refine ⟨d, ?_⟩
  obtain ⟨s', done⟩ := @updateLoop_total _ _ (d.dfs root) { s with dag := d } fun v member => by
    rw [dfs_congr g] at member
    have present := aligned.dfs_mem member
    obtain ⟨set, found, inside⟩ := aligned.sets v present
    have fits := votable.fits v member set found
    exact ⟨set, found, convinced v present (fits v (.inl rfl)),
      convinced set.pref inside (fits _ (.inr rfl))⟩
  exact ⟨s', voted, done⟩

end Unwrap
end Subzero.Sleet

namespace Subzero.Actor
variable {H : Type} [DecidableEq H] [Blake3 H]

/-- The condition on a step. -/
structure Aligns (order : HashOrder H) (w : Actor H) (e : Event H) : Prop where
  placed : ∀ r ∈ w.receipts order e, r.1.Placed r.2
  anchored : Sleet.Anchored (w.frontier e) w.sleet.dag w.sleet.conflictGraph
  votable : ∀ root ∈ w.passing e, w.sleet.Votable root
  tidy : ∀ hashes ∈ w.accepting e, w.sleet.Tidy hashes

/-- The calls that a handler unwraps return no error. -/
def Unwraps (order : HashOrder H) (w : Actor H) : Event H → Prop
  | .generateTx _ => ∃ parents, w.sleet.selectParents order NPARENTS = .ok parents
  | .queryTx _ _ tx => ∀ new s, w.sleet.onReceiveTx order tx = .ok new s →
      ∃ b, s.isStronglyPreferred tx.hash = .ok b
  | .deliver i =>
    match w.mailbox[i]? with
    | some .checkPending => ∀ r ∈ w.receipts order (.deliver i), ∀ new s,
        r.1.onReceiveTx order r.2 = .ok new s → ∃ b, s.isStronglyPreferred r.2.hash = .ok b
    | some (.queryComplete tx acks) =>
      if w.sleet.Succeeds acks then
        ∃ d s, w.sleet.dag.setChit tx.hash 1 = .ok () d ∧
          { w.sleet with dag := d }.updateAncestralPreference tx.hash = .ok () s
      else ∃ s, w.sleet.resetAncestorConfidence tx.hash = .ok () s
    | some (.queryIncomplete tx _) => ∃ s, w.sleet.resetAncestorConfidence tx.hash = .ok () s
    | _ => True
  | _ => True

variable {order : HashOrder H} {w w' : Actor H} {e : Event H}

theorem Move.aligned (move : Move order w e w')
    (injective : Function.Injective (Cell.hash : Cell H → H)) (sound : Sound w)
    (aligns : w.Aligns order e) (aligned : Sleet.Aligned w.sleet.dag w.sleet.conflictGraph) :
    Sleet.Aligned w'.sleet.dag w'.sleet.conflictGraph := by
  cases move with
  | receives _ takes => exact takes.aligned injective aligned aligns.anchored aligns.placed
  | complete _ handled => exact aligned.queryComplete handled
  | incomplete _ handled => exact aligned.queryIncomplete handled
  | newAccepted delivered handled =>
    refine aligned.newAccepted injective sound.keyed (aligns.tidy _ ?_) handled
    simp [accepting, delivered]
  | fetches _ eq => rw [eq]; exact aligned

theorem aligned_unwraps (injective : Function.Injective (Cell.hash : Cell H → H))
    (aligned : Sleet.Aligned w.sleet.dag w.sleet.conflictGraph) (aligns : w.Aligns order e) :
    w.Unwraps order e := by
  -- the vote is taken in the state after the transaction was received
  have votes : ∀ r ∈ w.receipts order e, Sleet.Aligned r.1.dag r.1.conflictGraph → ∀ new s,
      r.1.onReceiveTx order r.2 = .ok new s → ∃ b, s.isStronglyPreferred r.2.hash = .ok b := by
    intro r member here new s received
    exact (here.receive injective (aligns.placed r member)
      (congrArg Outcome.state? received)).1.isStronglyPreferred _
  cases e with
  | generateTx cell => exact Sleet.selectParents_ok aligned.isStronglyPreferred NPARENTS order
  | queryTx id ip tx => exact votes (w.sleet, tx) List.mem_cons_self aligned
  | deliver i =>
    have placed := aligns.placed
    have votable := aligns.votable
    simp only [Unwraps]
    split
    · rename_i delivered
      intro r member
      refine votes r member ?_
      simp only [receipts, delivered] at placed member
      exact Sleet.Aligned.receipts injective
        (s := { w.sleet with pendingQueries := [] }) aligned placed r member
    · rename_i tx acks delivered
      split
      · rename_i enough
        refine aligned.updateAncestralPreference (votable tx.hash ?_)
        simp [passing, message, delivered, enough]
      · exact aligned.resetAncestorConfidence tx.hash
    · exact aligned.resetAncestorConfidence _
    · trivial
  | _ => trivial

/-- In a run whose steps all meet the condition, every vertex of the DAG has a conflict
set, the preferred transaction is a vertex, and a further event that meets the condition
reaches no unwrap with an error. -/
theorem graphs_aligned (injective : Function.Injective (Cell.hash : Cell H → H))
    (order : HashOrder H) (id : Id) (ip : SocketAddr) (peers : List (Id × SocketAddr))
    (steps : List (Actor H × HashOrder H × Event H)) (w : Actor H)
    (run : Run step (started (.new order id ip peers)) steps w)
    (meets : Meets (fun w x => w.Aligns x.1 x.2) steps) :
    (∀ v ∈ w.sleet.dag.g, ∃ set, w.sleet.conflictGraph.cs.lookup v = some set ∧
        set.pref ∈ w.sleet.dag.g) ∧
      ∀ order' e, w.Aligns order' e → w.Unwraps order' e := by
  have start : Sleet.Aligned (DAG.new : DAG H) (ConflictGraph.new order ∅) :=
    ⟨.new, ConflictGraph.new_consistent order ∅, fun v h => absurd h Finmap.notMem_empty,
      fun v h => absurd h Finmap.notMem_empty, fun v n found => by simp [DAG.new] at found⟩
  have aligned := (run.invariant _ meets
    (fun w => Sound w ∧ Sleet.Aligned w.sleet.dag w.sleet.conflictGraph)
    ⟨.started order id ip peers, start⟩ (by
      rintro u ⟨o, e⟩ v ⟨sound, aligned⟩ aligns taken
      have move := step_move taken
      exact ⟨move.sound sound, move.aligned injective sound aligns aligned⟩)).2
  exact ⟨aligned.sets, fun _ _ => aligned_unwraps injective aligned⟩

/-- A peer names a transaction of its frontier that this node has not received. The
transaction goes into the DAG alone, and the next transaction of the node's own panics. -/
theorem frontier_misaligned :
    ∃ (steps : List (Actor Digest × HashOrder Digest × Event Digest)) (w : Actor Digest)
      (v : Digest) (cell : Cell Digest),
      Run step (started (.new ascendingOrder node "node" [(peer, "peer")])) steps w ∧
      v ∈ w.sleet.dag.g ∧ v ∉ w.sleet.conflictGraph.cs ∧
      w.sleet.selectParents ascendingOrder NPARENTS = .error (.undefinedCellHash v) ∧
      w.step (ascendingOrder, .generateTx cell) = none := by
  let t := transfer [] 0
  let events : List (Event Digest) := [joins 2, .deliver 0,
    .reply 0 (some (.fanout [.acceptedFrontier {t.hash}]))]
  let own := pay [mint 1] 7
  have found : (exec step (started (.new ascendingOrder node "node" [(peer, "peer")]))
      (events.map fun e => (ascendingOrder, e))).any (fun r => decide (t.hash ∈ r.2.sleet.dag.g ∧
        t.hash ∉ r.2.sleet.conflictGraph.cs) &&
      (match r.2.sleet.selectParents ascendingOrder NPARENTS with
        | .error e => decide (e = .undefinedCellHash t.hash)
        | .ok _ => false) &&
      (r.2.step (ascendingOrder, .generateTx own)).isNone) = true := by
    decide +kernel
  obtain ⟨steps, w, run, all⟩ := exec_any found
  rw [Bool.and_eq_true, Bool.and_eq_true] at all
  obtain ⟨⟨inside, failed⟩, stuck⟩ := all
  obtain ⟨present, absent⟩ := of_decide_eq_true inside
  refine ⟨steps, w, t.hash, own, run, present, absent, ?_, Option.isNone_iff_eq_none.mp stuck⟩
  split at failed
  · rename_i e selected
    rw [selected, of_decide_eq_true failed]
  · cases failed

omit [Blake3 H] in
/-- A condition that can be evaluated and is enough when the conflicts have no children. -/
theorem tidy_of_childless {s : Sleet H} {hashes : List H}
    (conflicts : ∀ t ∈ hashes, ∀ set ∈ s.conflictGraph.cs.lookup t, ∀ r ∈ set.conflicts, r ≠ t →
      r ∈ s.knownTxs ∧ r ∈ s.dag.g ∧ r ∉ hashes ∧ s.dag.childSet r = ∅)
    (prefs : ∀ v ∈ s.dag.g.keys, v ∉ hashes → (∀ t ∈ hashes,
      ∀ set ∈ s.conflictGraph.cs.lookup t, v ∈ set.conflicts → v = t) →
        ∀ set ∈ s.conflictGraph.cs.lookup v, set.pref = v) : s.Tidy hashes := by
  refine ⟨?_, ?_, fun v present other stays set found => ?_⟩
  · rintro r ⟨t, listed, set, found, conflict, ne⟩
    obtain ⟨known, present, _⟩ := conflicts t listed set found r conflict ne
    exact ⟨known, present⟩
  · rintro u member (⟨t, listed, set, found, conflict, ne⟩ | removed)
    · exact (conflicts t listed set found u conflict ne).2.2.1 member
    · refine childless_not_removes (fun t listed set found r conflict ne => ?_) u removed
      exact (conflicts t listed set found r conflict ne).2.2.2
  · refine .inl (prefs v (Finmap.mem_keys.mpr present) other (fun t listed set found member => ?_)
      set found)
    by_contra ne
    exact stays ⟨t, listed, set, found, member, ne⟩

/-- Two transfers of one coin, of which the first is accepted and the other is rejected;
then the node selects parents for a transaction of its own. -/
theorem graphs_aligned_rival :
    ∃ (steps : List (Actor Digest × HashOrder Digest × Event Digest)) (w : Actor Digest),
      Run step sample steps w ∧ (∃ h, w.status h = some .rejected) ∧
      (∀ v ∈ w.sleet.dag.g, ∃ set, w.sleet.conflictGraph.cs.lookup v = some set ∧
        set.pref ∈ w.sleet.dag.g) ∧
      ∃ parents, w.sleet.selectParents ascendingOrder NPARENTS = .ok parents := by
  let t := transfer [] 0
  let u : Tx Digest := .new [] (pay [mint 0] 8)
  let v := transfer [t] 1
  let children := (List.range 18).map fun i => transfer [v] (i + 2)
  let events := joins 21 :: poll 1 true [t] ++ [receive u] ++ poll 4 true (v :: children) ++
    [.deliver 23]
  let own := pay [mint 20] 7
  let check := fun (w : Actor Digest) (x : HashOrder Digest × Event Digest) => decide (
    (∀ r ∈ w.receipts x.1 x.2, ∀ set ∈ r.1.conflictGraph.firstConflict r.2.cell,
      set.pref ∈ r.1.dag.g) ∧ w.frontier x.2 = ∅ ∧
    (∀ root ∈ w.passing x.2, w.sleet.dag.chits.lookup root ≠ some 1 ∧
      ∀ v ∈ w.sleet.dag.dfs root, ∀ set ∈ w.sleet.conflictGraph.cs.lookup v, ∀ y ∈ [v, set.pref],
        w.sleet.dag.weight y + (if root ∈ w.sleet.dag.progeny y then 1 else 0) < 2 ^ 8) ∧
    ∀ hashes ∈ w.accepting x.2,
      (∀ t ∈ hashes, ∀ set ∈ w.sleet.conflictGraph.cs.lookup t, ∀ r ∈ set.conflicts, r ≠ t →
        r ∈ w.sleet.knownTxs ∧ r ∈ w.sleet.dag.g ∧ r ∉ hashes ∧ w.sleet.dag.childSet r = ∅) ∧
      ∀ v ∈ w.sleet.dag.g.keys, v ∉ hashes → (∀ t ∈ hashes,
        ∀ set ∈ w.sleet.conflictGraph.cs.lookup t, v ∈ set.conflicts → v = t) →
          ∀ set ∈ w.sleet.conflictGraph.cs.lookup v, set.pref = v)
  have aligns : ∀ w x, check w x = true → w.Aligns x.1 x.2 := by
    intro w x checked
    obtain ⟨placed, none_added, votable, tidy⟩ := of_decide_eq_true checked
    refine ⟨fun r hr _ => placed r hr, fun v member => ?_, fun root passing => ?_,
      fun hashes told => tidy_of_childless (tidy hashes told).1 (tidy hashes told).2⟩
    · simp [none_added] at member
    · obtain ⟨unset, fits⟩ := votable root passing
      exact ⟨unset, fun v member set found y hy => fits v member set found y (by simpa using hy)⟩
  have found : (runSample events).any (fun r => decide (r.2.status u.hash = some .rejected) &&
      check r.2 (ascendingOrder, .generateTx own) && r.1.all fun x => check x.1 x.2) = true := by
    decide +kernel
  obtain ⟨steps, w, run, all⟩ := exec_any found
  rw [Bool.and_eq_true, Bool.and_eq_true] at all
  obtain ⟨⟨rejected, next⟩, checked⟩ := all
  have meets : Meets (fun w x => w.Aligns x.1 x.2) steps := fun x hx =>
    aligns x.1 x.2 (List.all_eq_true.mp checked x hx)
  obtain ⟨sets, unwraps⟩ := graphs_aligned hash_injective _ _ _ _ steps w run meets
  exact ⟨steps, w, run, ⟨u.hash, of_decide_eq_true rejected⟩, sets,
    unwraps ascendingOrder (.generateTx own) (aligns w _ next)⟩

end Subzero.Actor
