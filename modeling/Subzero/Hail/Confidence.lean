import Mathlib.Logic.Function.Basic
import Subzero.Hail.Sample

/-! The counter of a height against the votes at that height. Votes for one block
that follow each other are a streak; a vote for another block breaks it, but the
counter stays, and goes with the preference to the other block. -/
namespace Subzero.ConflictMap
variable {H : Type} [LinearOrder H] [BlockDigest H]

inductive Call (H : Type) where
  | insertBlock (block : Block H)
  | updateConflictSet (height : BlockHeight) (hash : H) (d1 d2 : Nat)

/-- A conflict map with the hashes of the update calls at every height, the last
call first. Calls that fail are listed too. -/
structure Tracked (H : Type) where
  map : ConflictMap H
  recent : BlockHeight → List H

variable {t : Tracked H} {calls : List H} {cs : ConflictSet H}

def Tracked.new : Tracked H := ⟨∅, fun _ => []⟩

def Tracked.call (t : Tracked H) : Listing H × Call H → Option (Tracked H)
  | (order, .insertBlock block) => some { t with map := t.map.insertBlock order block }
  | (_, .updateConflictSet height hash d1 d2) => some {
      map := (t.map.updateConflictSet height hash d1 d2).toOption.getD t.map
      recent := Function.update t.recent height (hash :: t.recent height) }

/-- The length of the unbroken run of most recent calls for a hash. -/
def streak (hash : H) (calls : List H) : Nat := (calls.takeWhile (· = hash)).length

/-- No block has more confidence than its streak. -/
def Consecutive (t : Tracked H) : Prop :=
  ∀ v confidence, t.map.getConfidence v = .ok confidence →
    confidence ≤ streak v.blockHash (t.recent v.height)

/-- A vote goes to the block that is preferred after it, and continues the streak of
that block or meets a counter of at most one; or it goes to another block, meets a
counter of zero and leaves it there. -/
def Unbroken (cs : ConflictSet H) (hash : H) (d1 d2 : Nat) : Prop :=
  if d1 > d2 ∨ cs.pref = hash then hash = cs.last ∨ cs.cnt ≤ 1 else cs.cnt = 0 ∧ hash ≠ cs.last

instance (cs : ConflictSet H) (hash : H) (d1 d2 : Nat) : Decidable (Unbroken cs hash d1 d2) := by
  unfold Unbroken
  infer_instance

def CallUnbroken (m : ConflictMap H) : Call H → Prop
  | .insertBlock _ => True
  | .updateConflictSet height hash d1 d2 => ∀ cs ∈ m.lookup height, Unbroken cs hash d1 d2

instance (m : ConflictMap H) : (x : Call H) → Decidable (CallUnbroken m x)
  | .insertBlock _ => isTrue trivial
  | .updateConflictSet height hash d1 d2 =>
    inferInstanceAs (Decidable (∀ cs ∈ m.lookup height, Unbroken cs hash d1 d2))

/-- A counter that has counted was last raised by a vote for `last`, and no vote
came after it. -/
def Counted (t : Tracked H) : Prop :=
  ∀ h cs, t.map.lookup h = some cs → cs.cnt = 0 ∨ (t.recent h).head? = some cs.last

omit [BlockDigest H] in
/-- Only the preferred block of a height can have too much confidence. -/
theorem consecutive_iff :
    Consecutive t ↔ ∀ h cs, t.map.lookup h = some cs → cs.cnt ≤ streak cs.pref (t.recent h) := by
  constructor
  · intro all h cs found
    exact all ⟨h, cs.pref⟩ cs.cnt (getConfidence_ok.mpr ⟨cs, found, if_pos rfl⟩)
  · intro all v c confidence
    obtain ⟨cs, found, rfl⟩ := getConfidence_ok.mp confidence
    split
    · rename_i preferred
      exact preferred ▸ all v.height cs found
    · exact Nat.zero_le _

omit [BlockDigest H] in
theorem streak_cons (hash vote : H) (calls : List H) :
    streak hash (vote :: calls) = if vote = hash then streak hash calls + 1 else 0 := by
  unfold streak
  by_cases same : vote = hash <;> simp [same]

omit [BlockDigest H] in
theorem streak_pos {hash : H} (pos : 0 < streak hash calls) : calls.head? = some hash := by
  cases calls with
  | nil => simp [streak] at pos
  | cons vote calls =>
    rw [streak_cons] at pos
    by_cases same : vote = hash
    · simp [same]
    · simp [same] at pos

omit [BlockDigest H] in
/-- If the counter has counted and is covered, the last vote was for the preferred
block. -/
theorem last_preferred (counted : cs.cnt = 0 ∨ calls.head? = some cs.last)
    (covered : cs.cnt ≤ streak cs.pref calls) (positive : cs.cnt ≠ 0) :
    calls.head? = some cs.pref ∧ cs.pref = cs.last := by
  have head := streak_pos ((Nat.pos_of_ne_zero positive).trans_le covered)
  have last := counted.resolve_left positive
  rw [head] at last
  exact ⟨head, Option.some.inj last⟩

omit [BlockDigest H] in
/-- One vote keeps the counter covered exactly under the condition. -/
theorem voteFor_covered (hash : H) (d1 d2 : Nat) (counted : cs.cnt = 0 ∨ calls.head? = some cs.last)
    (covered : cs.cnt ≤ streak cs.pref calls) :
    (cs.voteFor hash d1 d2).cnt ≤ streak (cs.voteFor hash d1 d2).pref (hash :: calls) ↔
      Unbroken cs hash d1 d2 := by
  have known := last_preferred counted covered
  have broken : hash ≠ cs.last → cs.cnt ≠ 0 → streak hash calls = 0 := by
    intro other positive
    by_contra pos
    have head := streak_pos (Nat.pos_of_ne_zero pos)
    rw [counted.resolve_left positive] at head
    exact other (Option.some.inj head).symm
  rw [streak_cons]
  unfold Unbroken ConflictSet.voteFor
  by_cases wins : d1 > d2 ∨ cs.pref = hash
  · -- the vote goes to the block that is preferred afterwards
    have pref : (if d1 > d2 then { cs with pref := hash } else cs) = { cs with pref := hash } := by
      rcases wins with wins | rfl <;> simp_all
    simp only [pref, wins, if_true]
    by_cases same : hash = cs.last
    · simp only [same, ne_eq, not_true_eq_false, if_false, if_true, true_or, iff_true]
      by_cases positive : cs.cnt = 0
      · simp [positive]
      · obtain ⟨_, eq⟩ := known positive
        have bound : cs.cnt ≤ streak cs.last calls := eq ▸ covered
        omega
    · simp only [same, ne_eq, not_false_eq_true, if_true, false_or]
      by_cases positive : cs.cnt = 0
      · simp [positive]
      · rw [broken same positive]
  · -- the vote goes to another block than the preferred one
    have less : ¬ d1 > d2 := fun h => wins (.inl h)
    have ne : ¬ cs.pref = hash := fun h => wins (.inr h)
    rw [if_neg wins, if_neg less]
    by_cases same : hash = cs.last
    · have zero : cs.cnt = 0 := by
        by_contra positive
        exact ne ((known positive).2.trans same.symm)
      simp [same, zero, Ne.symm (same ▸ ne)]
    · simp [same, Ne.symm ne]

omit [BlockDigest H] in
theorem voteFor_counted (hash : H) (d1 d2 : Nat) :
    (cs.voteFor hash d1 d2).cnt = 0 ∨
      (hash :: calls).head? = some (cs.voteFor hash d1 d2).last := by
  right
  unfold ConflictSet.voteFor
  by_cases wins : d1 > d2 <;> by_cases same : hash = cs.last <;> simp [wins, same]

omit [BlockDigest H] in
theorem insertHash_cases (order : Listing H) (hash : H) (cs : ConflictSet H) :
    (cs.insertHash order hash).last = cs.last ∧
      ((cs.insertHash order hash).cnt = 0 ∨
        (cs.insertHash order hash).cnt = cs.cnt ∧ (cs.insertHash order hash).pref = cs.pref) := by
  unfold ConflictSet.insertHash
  simp only
  split
  · exact ⟨rfl, .inl rfl⟩
  · exact ⟨rfl, .inr ⟨rfl, rfl⟩⟩

/-- After an insertion a counter is zero, or it is the one there was, with the same
preference and the same last vote. -/
theorem insertBlock_sets {order : Listing H} {m : ConflictMap H} {block : Block H}
    {h : BlockHeight} {cs' : ConflictSet H}
    (found : (m.insertBlock order block).lookup h = some cs') :
    cs'.cnt = 0 ∨ ∃ cs, m.lookup h = some cs ∧ cs'.cnt = cs.cnt ∧ cs'.pref = cs.pref ∧
      cs'.last = cs.last := by
  rw [insertBlock_lookup] at found
  split at found
  · rename_i same
    subst same
    cases known : m.lookup block.height with
    | none => rw [known] at found; cases found; exact .inl rfl
    | some cs =>
      rw [known] at found
      cases found
      obtain ⟨last, zero | ⟨cnt, pref⟩⟩ := insertHash_cases order block.hash cs
      · exact .inl zero
      · exact .inr ⟨cs, rfl, cnt, pref, last⟩
  · exact .inr ⟨cs', found, rfl, rfl, rfl⟩

/-- After a vote a set is the one there was, with the same calls, or it is the set
at the height of the vote. -/
theorem Tracked.update_sets {t t' : Tracked H} {order : Listing H} {height h : BlockHeight}
    {hash : H} {d1 d2 : Nat} {cs' : ConflictSet H}
    (taken : t.call (order, .updateConflictSet height hash d1 d2) = some t')
    (found : t'.map.lookup h = some cs') :
    (t.map.lookup h = some cs' ∧ t'.recent h = t.recent h) ∨
      h = height ∧ t'.recent h = hash :: t.recent h ∧
        ∃ cs, t.map.lookup h = some cs ∧ cs' = cs.voteFor hash d1 d2 := by
  cases taken
  cases known : t.map.lookup height with
  | none =>
    have kept : t.map.lookup h = some cs' := by
      simpa [updateConflictSet, getSet, known, Except.map, Except.toOption] using found
    refine .inl ⟨kept, Function.update_of_ne ?_ _ _⟩
    rintro rfl
    rw [known] at kept
    cases kept
  | some cs =>
    simp only [updateConflictSet_ok.mpr ⟨cs, known, rfl⟩, Except.toOption, Option.getD_some,
      HashMap.lookup_insert_ite] at found
    by_cases same : h = height
    · subst same
      rw [if_pos rfl] at found
      cases found
      exact .inr ⟨rfl, Function.update_self _ _ _, cs, known, rfl⟩
    · rw [if_neg same] at found
      exact .inl ⟨found, Function.update_of_ne same _ _⟩

theorem Tracked.update_lookup {t t' : Tracked H} {order : Listing H} {height : BlockHeight}
    {hash : H} {d1 d2 : Nat}
    (taken : t.call (order, .updateConflictSet height hash d1 d2) = some t')
    (known : t.map.lookup height = some cs) :
    t'.map.lookup height = some (cs.voteFor hash d1 d2) ∧
      t'.recent height = hash :: t.recent height := by
  cases taken
  simp [updateConflictSet_ok.mpr ⟨cs, known, rfl⟩, Except.toOption]

theorem Tracked.call_exact {t t' : Tracked H} {x : Listing H × Call H} (counted : Counted t)
    (covered : Consecutive t) (taken : t.call x = some t') :
    Counted t' ∧ (Consecutive t' ↔ CallUnbroken t.map x.2) := by
  rw [consecutive_iff] at covered ⊢
  obtain ⟨order, request⟩ := x
  cases request with
  | insertBlock block =>
    cases taken
    refine ⟨fun h cs' found => ?_, fun _ => trivial, fun _ h cs' found => ?_⟩
    · rcases insertBlock_sets found with zero | ⟨cs, known, cnt, _, last⟩
      · exact .inl zero
      · rw [last, cnt]
        exact counted h cs known
    · rcases insertBlock_sets found with zero | ⟨cs, known, cnt, pref, _⟩
      · simp [zero]
      · rw [cnt, pref]
        exact covered h cs known
  | updateConflictSet height hash d1 d2 =>
    refine ⟨fun h cs' found => ?_, fun all cs known => ?_, fun unbroken h cs' found => ?_⟩
    · rcases Tracked.update_sets taken found with ⟨known, same⟩ | ⟨rfl, calls, cs, _, rfl⟩
      · rw [same]
        exact counted h cs' known
      · rw [calls]
        exact voteFor_counted hash d1 d2
    · obtain ⟨here, calls⟩ := Tracked.update_lookup taken known
      have bound := all height _ here
      rw [calls] at bound
      exact (voteFor_covered hash d1 d2 (counted height cs known)
        (covered height cs known)).mp bound
    · rcases Tracked.update_sets taken found with ⟨known, same⟩ | ⟨rfl, calls, cs, known, rfl⟩
      · rw [same]
        exact covered h cs' known
      · rw [calls]
        exact (voteFor_covered hash d1 d2 (counted h cs known) (covered h cs known)).mpr
          (unbroken cs known)

/-- Along any calls, failing ones included, confidence counts consecutive votes in
every state exactly if every update meets the condition. -/
theorem confidence_consecutive_iff (steps : List (Tracked H × Listing H × Call H))
    (t : Tracked H) (run : Run Tracked.call Tracked.new steps t) :
    (∀ s ∈ states steps t, Consecutive s) ↔
      Meets (fun s x => CallUnbroken s.map x.2) steps := by
  refine run.exact _ Counted Consecutive ⟨?_, ?_⟩ ?_
  · intro h cs found
    simp [Tracked.new] at found
  · rw [consecutive_iff]
    intro h cs found
    simp [Tracked.new] at found
  · exact fun u x v counted covered taken => Tracked.call_exact counted covered taken

/-- Two conflicting blocks: votes for the first, one for the second, one more for the
first. The last two leave and resume the first block with its counter as it was. -/
theorem confidence_not_consecutive :
    ¬ ∀ (steps : List (Tracked Digest × Listing Digest × Call Digest)) (t : Tracked Digest),
      Run Tracked.call Tracked.new steps t → Consecutive t := by
  intro consecutive
  let a := HailActor.blank 1 0
  let b := HailActor.blank 1 1
  let order := ascendingVertices.hashes
  have found : (exec Tracked.call Tracked.new
      [(order, .insertBlock a), (order, .insertBlock b),
        (order, .updateConflictSet 1 a.hash 1 0), (order, .updateConflictSet 1 a.hash 2 1),
        (order, .updateConflictSet 1 b.hash 1 2), (order, .updateConflictSet 1 a.hash 3 1)]).any
          (fun r => decide (r.2.map.getConfidence a.vertex = .ok 2 ∧
            streak a.hash (r.2.recent 1) = 1)) = true := by
    decide +kernel
  obtain ⟨steps, last, run, both⟩ := exec_any found
  obtain ⟨confidence, one⟩ := of_decide_eq_true both
  have short : streak a.hash (last.recent 1) = 1 := one
  have bound : 2 ≤ streak a.hash (last.recent 1) :=
    consecutive steps last run a.vertex 2 confidence
  omega

theorem confidence_consecutive_votes :
    ∃ (steps : List (Tracked Digest × Listing Digest × Call Digest)) (t : Tracked Digest),
      Run Tracked.call Tracked.new steps t ∧ steps.length = 4 ∧
        ∀ s ∈ states steps t, Consecutive s := by
  let a := HailActor.blank 1 0
  let b := HailActor.blank 1 1
  let order := ascendingVertices.hashes
  have found : (exec Tracked.call Tracked.new
      [(order, .insertBlock a), (order, .insertBlock b),
        (order, .updateConflictSet 1 a.hash 1 0), (order, .updateConflictSet 1 a.hash 2 1)]).any
          (fun r => decide (r.1.length = 4 ∧ ∀ x ∈ r.1, CallUnbroken x.1.map x.2.2)) = true := by
    decide +kernel
  obtain ⟨steps, last, run, both⟩ := exec_any found
  obtain ⟨length, meets⟩ := of_decide_eq_true both
  exact ⟨steps, last, run, length, (confidence_consecutive_iff steps last run).mpr meets⟩

end Subzero.ConflictMap
