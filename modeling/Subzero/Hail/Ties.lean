import Mathlib.Order.Bounds.Basic
import Subzero.Hail.Sample

/-! Tie-breaking among the blocks of a height. As long as no vote is counted, what a
conflict set prefers depends on the blocks that it has seen and not on their order. -/
namespace Subzero
variable {H : Type} [LinearOrder H]

/-- The loop ends at the least element of the list. -/
theorem lowest_least (hashes : List H) (first : H) :
    IsLeast {x | x ∈ first :: hashes}
      (hashes.foldl (fun h hi => if hi < h then hi else h) first) := by
  induction hashes generalizing first with
  | nil => simp [IsLeast, lowerBounds]
  | cons a hashes ih =>
    obtain ⟨member, lower⟩ := ih (if a < first then a else first)
    rw [List.foldl_cons]
    have below : ∀ x ∈ (if a < first then a else first) :: hashes, _ ≤ x := fun x => @lower x
    have smaller : (if a < first then a else first) ≤ first ∧
        (if a < first then a else first) ≤ a := by
      split
      · rename_i less
        exact ⟨less.le, le_rfl⟩
      · rename_i more
        exact ⟨le_rfl, not_lt.mp more⟩
    have start := below _ List.mem_cons_self
    constructor
    · rcases List.mem_cons.mp member with same | later
      · rw [same]
        split <;> simp
      · exact List.mem_cons_of_mem _ (List.mem_cons_of_mem _ later)
    · intro x listed
      rcases List.mem_cons.mp listed with rfl | listed
      · exact start.trans smaller.1
      · rcases List.mem_cons.mp listed with rfl | later
        · exact start.trans smaller.2
        · exact below x (List.mem_cons_of_mem _ later)

namespace ConflictSet

theorem isLowestHash_iff (order : Listing H) {cs : ConflictSet H} {hash : H}
    (member : hash ∈ cs.conflicts) :
    cs.isLowestHash order hash = true ↔ IsLeast (cs.conflicts : Set H) hash := by
  have listed (x : H) := order.mem cs.conflicts x
  unfold isLowestHash lowestHash
  cases hashes : order.list cs.conflicts with
  | nil =>
    rw [← listed, hashes] at member
    cases member
  | cons first rest =>
    have least := lowest_least rest first
    have same : {x | x ∈ first :: rest} = (cs.conflicts : Set H) := by
      ext x
      rw [← hashes]
      exact listed x
    rw [same] at least
    simp only [decide_eq_true_eq]
    exact ⟨fun found => found ▸ least, fun lowest => least.unique lowest⟩

/-- A set in which no vote was counted: it prefers the least of its hashes. -/
structure Tied (hashes : Finset H) (cs : ConflictSet H) : Prop where
  conflicts : cs.conflicts = hashes
  cnt : cs.cnt = 0
  pref : IsLeast (hashes : Set H) cs.pref

theorem Tied.new (hash : H) : Tied {hash} (.new hash) where
  conflicts := rfl
  cnt := rfl
  pref := by
    rw [Finset.coe_singleton]
    exact isLeast_singleton

theorem Tied.insertHash {hashes : Finset H} {cs : ConflictSet H} (tied : Tied hashes cs)
    (order : Listing H) (hash : H) : Tied (insert hash hashes) (cs.insertHash order hash) := by
  obtain ⟨rfl, cnt, member, lower⟩ := tied
  have low : cs.cnt < Hail.BETA1 := by
    rw [cnt]
    decide
  let next : ConflictSet H := { cs with conflicts := insert hash cs.conflicts }
  have lowest : next.isLowestHash order hash = true ↔ _ :=
    isLowestHash_iff order (Finset.mem_insert_self hash cs.conflicts)
  by_cases least : IsLeast (next.conflicts : Set H) hash
  · have superseded : cs.insertHash order hash = { next with pref := hash, cnt := 0 } :=
      if_pos ⟨low, lowest.mpr least⟩
    rw [superseded]
    exact ⟨rfl, rfl, least⟩
  · have kept : cs.insertHash order hash = next :=
      if_neg fun both => least (lowest.mp both.2)
    -- another hash is lower, and so is the preferred one
    have under : cs.pref ≤ hash := by
      refine not_lt.mp fun less => least ⟨Finset.mem_insert_self _ _, fun x listed => ?_⟩
      rcases Finset.mem_insert.mp listed with rfl | old
      · exact le_rfl
      · exact less.le.trans (lower old)
    rw [kept]
    refine ⟨rfl, cnt, Finset.mem_insert_of_mem member, fun x listed => ?_⟩
    rcases Finset.mem_insert.mp listed with rfl | old
    · exact under
    · exact lower old

end ConflictSet

namespace ConflictMap
variable [BlockDigest H]

/-- Insert blocks one after the other, each with the order in which the hash set is listed
then. -/
def insertBlocks (insertions : List (Listing H × Block H)) (m : ConflictMap H) : ConflictMap H :=
  insertions.foldl (fun m x => m.insertBlock x.1 x.2) m

/-- The hashes of the blocks of one height. -/
def hashesAt (h : BlockHeight) (blocks : List (Block H)) : Finset H :=
  ((blocks.filter fun b => b.height = h).map Block.hash).toFinset

theorem hashesAt_cons (h : BlockHeight) (block : Block H) (blocks : List (Block H)) :
    hashesAt h (block :: blocks) =
      if h = block.height then insert block.hash (hashesAt h blocks) else hashesAt h blocks := by
  unfold hashesAt
  rw [List.filter_cons]
  by_cases here : h = block.height
  · simp [here]
  · simp [here, Ne.symm here]

theorem hashesAt_perm {blocks blocks' : List (Block H)} (perm : blocks.Perm blocks')
    (h : BlockHeight) : hashesAt h blocks = hashesAt h blocks' :=
  List.toFinset_eq_of_perm _ _ ((perm.filter _).map _)

/-- The map has a set for every height of a block that it has seen, and the sets are tied. -/
structure Seen (blocks : List (Block H)) (m : ConflictMap H) : Prop where
  absent : ∀ h, m.lookup h = none → hashesAt h blocks = ∅
  tied : ∀ h cs, m.lookup h = some cs → cs.Tied (hashesAt h blocks)

theorem Seen.insertBlock {blocks : List (Block H)} {m : ConflictMap H} (seen : Seen blocks m)
    (order : Listing H) (block : Block H) : Seen (block :: blocks) (m.insertBlock order block) := by
  constructor
  · intro h none
    rw [insertBlock_lookup] at none
    rw [hashesAt_cons]
    split at none
    · contradiction
    · rename_i other
      rw [if_neg other]
      exact seen.absent h none
  · intro h cs found
    rw [insertBlock_lookup] at found
    rw [hashesAt_cons]
    split at found
    · rename_i here
      subst here
      rw [if_pos rfl]
      obtain rfl := Option.some.inj found
      cases old : m.lookup block.height with
      | none =>
        rw [seen.absent _ old]
        exact .new block.hash
      | some set => exact (seen.tied _ set old).insertHash order block.hash
    · rename_i other
      rw [if_neg other]
      exact seen.tied h cs found

theorem Seen.insertBlocks {blocks : List (Block H)} {m : ConflictMap H} (seen : Seen blocks m)
    (insertions : List (Listing H × Block H)) :
    Seen ((insertions.map Prod.snd).reverse ++ blocks) (m.insertBlocks insertions) := by
  induction insertions generalizing blocks m with
  | nil => exact seen
  | cons x insertions ih =>
    have later := ih (seen.insertBlock x.1 x.2)
    rw [List.map_cons, List.reverse_cons, List.append_assoc]
    exact later

/-- After insertions into an empty map. -/
theorem seen_inserted (insertions : List (Listing H × Block H)) :
    Seen (insertions.map Prod.snd) (insertBlocks insertions ∅) := by
  have empty : Seen [] (∅ : ConflictMap H) := ⟨fun _ _ => rfl, fun _ _ found => by cases found⟩
  obtain ⟨absent, tied⟩ := empty.insertBlocks insertions
  have same (h : BlockHeight) :
      hashesAt h ((insertions.map Prod.snd).reverse ++ []) = hashesAt h (insertions.map Prod.snd) :=
    hashesAt_perm (by rw [List.append_nil]; exact List.reverse_perm _) h
  exact ⟨fun h none => same h ▸ absent h none, fun h cs found => same h ▸ tied h cs found⟩

/-- Whatever the order of the blocks and of the hash sets, every height ends with the same
conflicts, no votes and the least hash preferred. -/
theorem tie_breaking_converges (insertions insertions' : List (Listing H × Block H))
    (perm : (insertions.map Prod.snd).Perm (insertions'.map Prod.snd)) (h : BlockHeight) :
    (hashesAt h (insertions.map Prod.snd) = ∅ ∧ (insertBlocks insertions ∅).lookup h = none ∧
      (insertBlocks insertions' ∅).lookup h = none) ∨
    ∃ cs cs', (insertBlocks insertions ∅).lookup h = some cs ∧
      (insertBlocks insertions' ∅).lookup h = some cs' ∧
      cs.conflicts = hashesAt h (insertions.map Prod.snd) ∧ cs'.conflicts = cs.conflicts ∧
      cs.cnt = 0 ∧ cs'.cnt = 0 ∧
      IsLeast (hashesAt h (insertions.map Prod.snd) : Set H) cs.pref ∧ cs'.pref = cs.pref := by
  have seen := seen_inserted insertions
  have seen' := seen_inserted insertions'
  have same := hashesAt_perm perm h
  cases found : (insertBlocks insertions ∅).lookup h with
  | none =>
    have empty := seen.absent h found
    refine .inl ⟨empty, rfl, ?_⟩
    cases found' : (insertBlocks insertions' ∅).lookup h with
    | none => rfl
    | some cs' =>
      have member := (seen'.tied h cs' found').pref.1
      rw [← same, empty] at member
      exact absurd member (Finset.notMem_empty _)
  | some cs =>
    have tied := seen.tied h cs found
    cases found' : (insertBlocks insertions' ∅).lookup h with
    | none =>
      have member := tied.pref.1
      rw [same, seen'.absent h found'] at member
      exact absurd member (Finset.notMem_empty _)
    | some cs' =>
      have tied' := seen'.tied h cs' found'
      rw [← same] at tied'
      exact .inr ⟨cs, cs', rfl, rfl, tied.conflicts, tied'.conflicts.trans tied.conflicts.symm,
        tied.cnt, tied'.cnt, tied.pref, tied'.pref.unique tied.pref⟩

/-- Two blocks of one height, inserted in both orders. -/
theorem tie_breaking_converges_two :
    HailActor.blank 1 0 ≠ HailActor.blank 1 1 ∧ ∃ cs cs',
      (insertBlocks [(ascendingVertices.hashes, HailActor.blank 1 0),
        (ascendingVertices.hashes, HailActor.blank 1 1)] ∅).lookup 1 = some cs ∧
      (insertBlocks [(ascendingVertices.hashes, HailActor.blank 1 1),
        (ascendingVertices.hashes, HailActor.blank 1 0)] ∅).lookup 1 = some cs' ∧
      cs'.conflicts = cs.conflicts ∧ cs.cnt = 0 ∧ cs'.cnt = 0 ∧ cs'.pref = cs.pref := by
  refine ⟨by decide +kernel, ?_⟩
  rcases tie_breaking_converges
      [(ascendingVertices.hashes, HailActor.blank 1 0),
        (ascendingVertices.hashes, HailActor.blank 1 1)]
      [(ascendingVertices.hashes, HailActor.blank 1 1),
        (ascendingVertices.hashes, HailActor.blank 1 0)] (.swap _ _ _) 1 with
    ⟨none, _⟩ | ⟨cs, cs', found, found', _, conflicts, cnt, cnt', _, pref⟩
  · exact absurd none (by decide +kernel)
  · exact ⟨cs, cs', found, found', conflicts, cnt, cnt', pref⟩

end ConflictMap
end Subzero
