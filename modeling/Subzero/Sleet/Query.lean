import Subzero.Graph.Operations
import Subzero.Sleet.Receive

/-! What the outcome of a query does: which transactions a query that got its votes
makes accepted, said on the state before it. -/
namespace Subzero
variable {H : Type} [DecidableEq H] [Blake3 H]
variable {s s' : Sleet H} {hash : H} {b : Bool}

/-- The counter of a conflict set after one more successful query. -/
def ConflictSet.bumped (hash : H) (set : ConflictSet H) : Nat :=
  if set.last = hash ∧ set.cnt < BETA2 then set.cnt + 1 else set.cnt

/-- A counter is high enough, with the lower threshold for a singleton. -/
def ConflictSet.Enough (set : ConflictSet H) (cnt : Nat) : Prop :=
  set.isSingleton = true ∧ BETA1 ≤ cnt ∨ BETA2 ≤ cnt

instance (set : ConflictSet H) (cnt : Nat) : Decidable (set.Enough cnt) :=
  inferInstanceAs (Decidable (_ ∨ _))

omit [Blake3 H] in
theorem ConflictSet.update_cnt (hash : H) (d1 d2 : Nat) (set : ConflictSet H) :
    (set.update hash d1 d2).cnt = set.bumped hash := by
  unfold ConflictSet.update ConflictSet.bumped
  by_cases d : d1 > d2 <;> by_cases last : hash = set.last <;> by_cases full : set.cnt < BETA2 <;>
    simp [d, last, full, eq_comm]

namespace Sleet

/-- The verdict of `is_accepted_tx`. -/
def Final (s : Sleet H) (hash : H) : Prop :=
  s.knownTxs.status hash = some .accepted ∨
    s.knownTxs.status hash ≠ some .removed ∧ s.knownTxs.status hash ≠ some .rejected ∧
      ∃ set ∈ s.conflictGraph.cs.lookup hash, set.Enough set.cnt

/-- What the verdict will be after one more successful query. -/
def NearlyFinal (s : Sleet H) (hash : H) : Prop :=
  s.knownTxs.status hash = some .accepted ∨
    s.knownTxs.status hash ≠ some .removed ∧ s.knownTxs.status hash ≠ some .rejected ∧
      ∃ set ∈ s.conflictGraph.cs.lookup hash, set.Enough (set.bumped hash)

/-- An ancestor of the queried transaction whose whole ancestry is nearly final. -/
def Ripe (s : Sleet H) (root hash : H) : Prop :=
  hash ∈ s.dag.dfs root ∧ ∀ a ∈ s.dag.dfs hash, s.NearlyFinal a

instance (s : Sleet H) (hash : H) : Decidable (s.Final hash) := inferInstanceAs (Decidable (_ ∨ _))

instance (s : Sleet H) (hash : H) : Decidable (s.NearlyFinal hash) :=
  inferInstanceAs (Decidable (_ ∨ _))

instance (s : Sleet H) (root hash : H) : Decidable (s.Ripe root hash) :=
  inferInstanceAs (Decidable (_ ∧ _))

section Verdict
omit [Blake3 H]

theorem isAcceptedTx_verdict (h : s.isAcceptedTx hash = some b) : b = true ↔ s.Final hash := by
  unfold isAcceptedTx at h
  unfold Final
  split at h
  · rename_i accepted
    cases h
    simp [(accepted_iff s hash).mp accepted]
  · rename_i undecided
    rw [accepted_iff] at undecided
    split at h
    · rename_i cannot
      cases h
      rw [TxDb.cannotBeAccepted_iff] at cannot
      rcases cannot with h | h <;> simp [h]
    · rename_i can
      rw [TxDb.cannotBeAccepted_iff, not_or] at can
      split at h
      · rename_i confidence singleton hc hs
        unfold ConflictGraph.getConfidence at hc
        unfold ConflictGraph.isSingleton at hs
        cases found : s.conflictGraph.cs.lookup hash with
        | none => simp [found] at hc
        | some set =>
          simp only [found, Except.ok.injEq] at hc hs
          subst hc hs
          cases h
          simp only [undecided, can.1, can.2, not_false_eq_true, ne_eq, true_and, false_or,
            Option.mem_def, Option.some.injEq, exists_eq_left', ConflictSet.Enough]
          split <;> simp_all
      · cases h

theorem allAccepted_verdict {l : List H} (h : s.allAccepted l = some b) :
    b = true ↔ ∀ a ∈ l, s.Final a := by
  induction l generalizing b with
  | nil => cases h; simp
  | cons a l ih =>
    unfold allAccepted at h
    split at h
    · cases h
    · rename_i verdict
      cases h
      have no := (isAcceptedTx_verdict verdict).not.mp (by decide)
      simp [no]
    · rename_i verdict
      have yes := (isAcceptedTx_verdict verdict).mp rfl
      simp [ih h, yes]

theorem isAccepted_verdict (h : s.isAccepted hash = some b) :
    b = true ↔ ∀ a ∈ s.dag.dfs hash, s.Final a := allAccepted_verdict h

/-- Verdicts remembered for one state are verdicts for another that agrees on them. -/
def Remembers (s : Sleet H) (memo : HashMap H Bool) : Prop :=
  ∀ h b, memo.lookup h = some b → (b = true ↔ ∀ a ∈ s.dag.dfs h, s.Final a)

theorem isAcceptedMemo_verdict {memo memo' : HashMap H Bool} (sound : s.Remembers memo)
    (h : s.isAcceptedMemo hash memo = some (b, memo')) :
    (b = true ↔ ∀ a ∈ s.dag.dfs hash, s.Final a) ∧ s.Remembers memo' := by
  unfold isAcceptedMemo at h
  split at h
  · rename_i res found
    cases h
    exact ⟨sound hash b found, sound⟩
  · obtain ⟨res, verdict, eq⟩ := Option.map_eq_some_iff.mp h
    cases eq
    refine ⟨isAccepted_verdict verdict, fun k c found => ?_⟩
    rcases HashMap.lookup_insert_some found with ⟨rfl, rfl⟩ | ⟨_, old⟩
    · exact isAccepted_verdict verdict
    · exact sound k c old

end Verdict

/-- The state differs in its conflict sets only. -/
def withSets (s : Sleet H) (cs : HashMap H (ConflictSet H)) : Sleet H :=
  { s with conflictGraph := { s.conflictGraph with cs := cs } }

section Update
omit [Blake3 H]

theorem updatePreference_ok (done : updatePreference hash s = .ok () s') :
    ∃ set d1 d2, s.conflictGraph.cs.lookup hash = some set ∧
      s' = s.withSets (s.conflictGraph.cs.insert hash (set.update hash d1 d2)) := by
  unfold updatePreference at done
  split at done
  · cases done
  · split at done
    · cases done
    · cases done
    · rename_i d1 _
      split at done
      · cases done
      · cases done
      · rename_i d2 _
        obtain ⟨cg, updated, rfl⟩ := Outcome.lift_eq_ok.mp done
        obtain ⟨set, known, rfl⟩ := ConflictGraph.mutateSet_ok updated
        exact ⟨set, d1, d2, known, rfl⟩

/-- The update has touched exactly the listed sets, each once. -/
theorem updateLoop_ok {l : List H} (nodup : l.Nodup)
    (done : Outcome.forEach updatePreference l s = .ok () s') :
    ∃ cs, s' = s.withSets cs ∧
      (∀ k ∈ l, ∃ set d1 d2, s.conflictGraph.cs.lookup k = some set ∧
        cs.lookup k = some (set.update k d1 d2)) ∧
      ∀ k ∉ l, cs.lookup k = s.conflictGraph.cs.lookup k := by
  induction l generalizing s with
  | nil => cases done; exact ⟨s'.conflictGraph.cs, rfl, by simp, by simp⟩
  | cons a l ih =>
    obtain ⟨⟨⟩, s₁, first, rest⟩ := Outcome.bind_eq_ok.mp done
    have parts := List.nodup_cons.mp nodup
    obtain ⟨set, d1, d2, known, rfl⟩ := updatePreference_ok first
    obtain ⟨cs, rfl, touched, kept⟩ := ih parts.2 rest
    have before : ∀ k, (s.withSets (s.conflictGraph.cs.insert a
        (set.update a d1 d2))).conflictGraph.cs.lookup k =
          if k = a then some (set.update a d1 d2) else s.conflictGraph.cs.lookup k :=
      fun k => HashMap.lookup_insert_ite _ _ _ _
    refine ⟨cs, rfl, fun k hk => ?_, fun k hk => ?_⟩
    · rcases List.mem_cons.mp hk with rfl | later
      · exact ⟨set, d1, d2, known, by rw [kept k parts.1, before, if_pos rfl]⟩
      · have ne : k ≠ a := by rintro rfl; exact parts.1 later
        obtain ⟨set', e1, e2, known', found⟩ := touched k later
        rw [before, if_neg ne] at known'
        exact ⟨set', e1, e2, known', found⟩
    · rw [List.mem_cons, not_or] at hk
      rw [kept k hk.2, before, if_neg hk.1]

/-- The verdicts after the update are those foreseen before it. -/
theorem final_withSets_iff {cs : HashMap H (ConflictSet H)} {a : H}
    (touched : ∃ set d1 d2, s.conflictGraph.cs.lookup a = some set ∧ cs.lookup a = some (set.update
      a d1 d2)) : (s.withSets cs).Final a ↔ s.NearlyFinal a := by
  obtain ⟨set, d1, d2, known, found⟩ := touched
  unfold Final NearlyFinal
  have size : (set.update a d1 d2).isSingleton = set.isSingleton := by
    simp [ConflictSet.isSingleton]
  have here : (s.withSets cs).conflictGraph.cs.lookup a = some (set.update a d1 d2) := found
  simp only [here, known, Option.mem_def, Option.some.injEq, exists_eq_left', ConflictSet.Enough,
    size, ConflictSet.update_cnt]
  rfl

end Update

section Retuned
omit [Blake3 H]

omit [DecidableEq H] in
/-- A loop keeps a relation of the conflict graphs that its rounds keep. -/
theorem forEach_graphs {R : ConflictGraph H → ConflictGraph H → Prop} (refl : ∀ c, R c c)
    (trans : ∀ {a b c}, R a b → R b c → R a c)
    {body : H → Sleet H → Outcome (SleetError H) (Sleet H) Unit}
    (round : ∀ {h s t}, (body h s).state? = some t → R s.conflictGraph t.conflictGraph)
    {l : List H} {s s' : Sleet H} (done : (Outcome.forEach body l s).unwrap = some ((), s')) :
    R s.conflictGraph s'.conflictGraph :=
  Outcome.forEach_rel (fun s t => R s.conflictGraph t.conflictGraph) (fun _ => refl _)
    (fun _ _ _ => trans) body l (fun _ _ _ _ => round) s s'
    (congrArg Outcome.state? (Outcome.unwrap_eq_some.mp done))

theorem updatePreference_graph (left : (updatePreference hash s).state? = some s') :
    s'.conflictGraph = s.conflictGraph ∨ ∃ d1 d2,
      (s.conflictGraph.updateConflictSet hash d1 d2).state? = some s'.conflictGraph := by
  unfold updatePreference at left
  split at left
  · cases left; exact .inl rfl
  · split at left
    · cases left
    · cases left; exact .inl rfl
    · split at left
      · cases left
      · cases left; exact .inl rfl
      · rw [Outcome.state?_lift] at left
        obtain ⟨cg, updated, rfl⟩ := Option.map_eq_some_iff.mp left
        exact .inr ⟨_, _, updated⟩

theorem updatePreference_retuned (left : (updatePreference hash s).state? = some s') :
    s.conflictGraph.Retuned s'.conflictGraph := by
  rcases updatePreference_graph left with same | ⟨d1, d2, updated⟩
  · rw [same]
    exact .refl _
  · rcases ConflictGraph.mutateSet_cases updated with ⟨same, _⟩ | ⟨set, known, same, _⟩ <;>
      rw [same]
    · exact .refl _
    · exact ConflictGraph.mutateSet_retuned known (by simp)

theorem failQuery_retuned (done : s.failQuery hash = some s') :
    s.conflictGraph.Retuned s'.conflictGraph := by
  obtain ⟨⟨_, s₁⟩, unwrapped, rfl⟩ := Option.map_eq_some_iff.mp done
  refine forEach_graphs .refl .trans (fun round => ?_) unwrapped
  rw [Outcome.state?_lift] at round
  obtain ⟨cg, reset, rfl⟩ := Option.map_eq_some_iff.mp round
  rcases ConflictGraph.mutateSet_cases reset with ⟨rfl, _⟩ | ⟨set, known, rfl, _⟩
  · exact .refl _
  · exact ConflictGraph.mutateSet_retuned known rfl

end Retuned

omit [Blake3 H] in
theorem failQuery_some (done : s.failQuery hash = some s') : ∃ cs, s' = s.withSets cs := by
  obtain ⟨⟨_, s₁⟩, unwrapped, rfl⟩ := Option.map_eq_some_iff.mp done
  have left : (Outcome.forEach (fun hash s => (s.conflictGraph.resetCount hash).lift
      SleetError.graph fun cg => { s with conflictGraph := cg }) (s.dag.dfs hash) s).state? =
        some s₁ := by
    rw [Outcome.unwrap_eq_some] at unwrapped
    exact congrArg Outcome.state? unwrapped
  refine Outcome.forEach_rel (fun s t => ∃ cs, t = s.withSets cs)
    (fun s => ⟨s.conflictGraph.cs, rfl⟩) ?_ _ _ ?_ s s₁ left
  · rintro s _ _ ⟨cs, rfl⟩ ⟨cs', rfl⟩
    exact ⟨cs', rfl⟩
  · intro h _ s t round
    rw [Outcome.state?_lift] at round
    obtain ⟨cg, reset, rfl⟩ := Option.map_eq_some_iff.mp round
    rcases ConflictGraph.mutateSet_cases reset with ⟨rfl, _⟩ | ⟨set, _, rfl, _⟩
    · exact ⟨s.conflictGraph.cs, rfl⟩
    · exact ⟨_, rfl⟩

end Sleet
end Subzero
