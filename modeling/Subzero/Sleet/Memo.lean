import Subzero.Graph.Mirror
import Subzero.Sleet.Acceptance
import Subzero.Sleet.Sample

/-! The acceptance loop remembers verdicts while it changes the statuses they were read
from. Every remembered verdict is still the one that a fresh traversal would give, and the
loop returns wherever its lookups can succeed. -/
namespace Subzero.Sleet
variable {H : Type} [DecidableEq H]

/-- Every vertex of the DAG has a conflict set and is stored. -/
structure Backed (s : Sleet H) : Prop where
  set : ∀ v ∈ s.dag.g, v ∈ s.conflictGraph.cs
  tx : ∀ v ∈ s.dag.g, v ∈ s.knownTxs

theorem isAcceptedTx_eq {s : Sleet H} {hash : H} (known : hash ∈ s.conflictGraph.cs) :
    s.isAcceptedTx hash = some (decide (s.Final hash)) := by
  have returns : ∃ b, s.isAcceptedTx hash = some b := by
    obtain ⟨set, found⟩ := Finmap.mem_iff.mp known
    unfold isAcceptedTx
    split
    · exact ⟨_, rfl⟩
    · split
      · exact ⟨_, rfl⟩
      · simp [ConflictGraph.getConfidence, ConflictGraph.isSingleton, found]
  obtain ⟨b, answer⟩ := returns
  rw [answer, Option.some.injEq, Bool.eq_iff_iff, decide_eq_true_eq]
  exact isAcceptedTx_verdict answer

theorem allAccepted_eq {s : Sleet H} {l : List H} (known : ∀ a ∈ l, a ∈ s.conflictGraph.cs) :
    s.allAccepted l = some (decide (∀ a ∈ l, s.Final a)) := by
  induction l with
  | nil => simp [allAccepted]
  | cons a l ih =>
    rw [allAccepted, isAcceptedTx_eq (known a List.mem_cons_self)]
    have rest := ih fun b later => known b (List.mem_cons_of_mem a later)
    by_cases final : s.Final a
    · simp [final, rest]
    · simp [final]

/-- The plain traversal always answers, with the verdict on the ancestry. -/
theorem Backed.isAccepted_eq {s : Sleet H} (backed : Backed s) (hash : H) :
    ∃ b, s.isAccepted hash = some b ∧ (b = true ↔ s.Verdict hash) := by
  refine ⟨_, allAccepted_eq fun a member => backed.set a (DAG.dfs_mem member), ?_⟩
  rw [decide_eq_true_eq]
  rfl

/-- A memo of verdicts answers as the plain traversal does. -/
theorem Backed.isAcceptedMemo_eq {s : Sleet H} (backed : Backed s) {memo : HashMap H Bool}
    (sound : s.Remembers memo) (hash : H) :
    (s.isAcceptedMemo hash memo).map Prod.fst = s.isAccepted hash := by
  unfold isAcceptedMemo
  split
  · rename_i res found
    obtain ⟨b, plain, verdict⟩ := backed.isAccepted_eq hash
    have same : res = b := Bool.eq_iff_iff.mpr ((sound hash res found).trans verdict.symm)
    rw [plain, same]
    rfl
  · cases s.isAccepted hash <;> rfl

theorem Marked.backed {s t : Sleet H} {new : List H} (marked : Marked s new t)
    (backed : Backed s) : Backed t := by
  refine ⟨fun v member => ?_, fun v member => ?_⟩
  · rw [marked.dag] at member
    rw [marked.conflictGraph]
    exact backed.set v member
  · rw [marked.dag] at member
    rw [← Finmap.lookup_isSome, marked.txs]
    have stored := Finmap.lookup_isSome.mpr (backed.tx v member)
    split
    · rw [Option.isSome_map]
      exact stored
    · exact stored

theorem acceptRound_some {t : Sleet H} (new : List H) (memo : HashMap H Bool) {hash : H}
    (backed : Backed t) (built : t.acceptedTxs.Built 3000) (inside : hash ∈ t.dag.g) :
    ∃ new' memo' t', acceptRound (new, memo, t) hash = some (new', memo', t') ∧
      t'.acceptedTxs.Built 3000 := by
  have answers : ∃ r, t.isAcceptedMemo hash memo = some r := by
    unfold isAcceptedMemo
    split
    · exact ⟨_, rfl⟩
    · obtain ⟨b, plain, _⟩ := backed.isAccepted_eq hash
      rw [plain]
      exact ⟨_, rfl⟩
  obtain ⟨⟨b, memo'⟩, answer⟩ := answers
  unfold acceptRound
  simp only [answer]
  split
  · exact ⟨_, _, _, rfl, built⟩
  · cases b with
    | false => exact ⟨_, _, _, rfl, built⟩
    | true =>
      obtain ⟨acceptedTxs, inserted, built'⟩ := built.insert_some (by decide) hash
      obtain ⟨tx, stored⟩ := Finmap.mem_iff.mp (backed.tx hash inside)
      simp only [inserted, TxDb.setStatus, stored]
      exact ⟨_, _, _, rfl, built'⟩

/-- After any part of its list the loop has returned, with the marks and the memo that the
verdicts on the first state ask for. -/
theorem Backed.acceptLoop {s : Sleet H} (backed : Backed s) (linked : s.dag.Linked)
    (built : s.acceptedTxs.Built 3000) (l : List H) (nodup : l.Nodup)
    (inside : ∀ h ∈ l, h ∈ s.dag.g) :
    ∃ new memo t, l.foldlM acceptRound ([], ∅, s) = some (new, memo, t) ∧
      Looped s l new memo t ∧ t.acceptedTxs.Built 3000 := by
  induction l using List.reverseRecOn with
  | nil =>
    exact ⟨[], ∅, s, rfl, ⟨⟨rfl, rfl, by simp, by simp⟩, by simp [Remembers], List.nodup_nil,
      by simp⟩, built⟩
  | append_singleton l a ih =>
    have parts := List.nodup_append.mp nodup
    have fresh : a ∉ l := fun listed =>
      parts.2.2 a listed a (List.mem_singleton.mpr rfl) rfl
    have before : ∀ h ∈ l, h ∈ s.dag.g := fun h listed => inside h (List.mem_append_left _ listed)
    obtain ⟨new, memo, t, rounds, loop, built'⟩ := ih parts.1 before
    have here : a ∈ t.dag.g := by
      rw [loop.marked.dag]
      exact inside a (List.mem_append_right _ (List.mem_singleton.mpr rfl))
    obtain ⟨new', memo', t', round, built''⟩ :=
      acceptRound_some new memo (loop.marked.backed backed) built' here
    exact ⟨new', memo', t', foldlM_concat rounds round,
      acceptRound_looped linked before fresh loop round, built''⟩

/-- The verdict on an ancestry, in terms of the check of single transactions. -/
theorem Backed.verdict_iff {s : Sleet H} (backed : Backed s) (linked : s.dag.Linked) {u : H}
    (inside : u ∈ s.dag.g) :
    s.Verdict u ↔ ∀ a, s.dag.Ancestor u a → s.isAcceptedTx a = some true := by
  have check : ∀ a, s.dag.Ancestor u a → (s.isAcceptedTx a = some true ↔ s.Final a) := by
    intro a path
    rw [isAcceptedTx_eq (backed.set a (linked.ancestor_mem inside path))]
    simp
  constructor
  · intro verdict a path
    exact (check a path).mpr (verdict a (linked.mem_dfs.mpr ⟨inside, path⟩))
  · intro all a member
    have path := (linked.mem_dfs.mp member).2
    exact (check a path).mp (all a path)

/-- In any state whose DAG has its inverted edges and whose vertices are backed the loop
returns, each once, exactly the ancestors that are not accepted yet and whose own ancestry
is final at the start. Their statuses are all that changes, and in every round the memo
answers as the plain traversal of the current state would. -/
theorem computeAcceptedTxs_memo {s : Sleet H} (transposed : s.dag.Transposed)
    (backed : Backed s) (built : s.acceptedTxs.Built 3000) (hash : H) :
    (∃ new s', s.computeAcceptedTxs hash = some (new, s') ∧ new.Nodup ∧
      (∀ u, u ∈ new ↔ (u ∈ s.dag.g ∧ s.dag.Ancestor hash u) ∧
        s.knownTxs.status u ≠ some .accepted ∧
        ∀ a, s.dag.Ancestor u a → s.isAcceptedTx a = some true) ∧
      Marked s new s') ∧
    ∀ done a rest, s.dag.dfs hash = done ++ a :: rest → ∃ new memo t,
      done.foldlM acceptRound ([], ∅, s) = some (new, memo, t) ∧
      ∃ b memo', t.isAcceptedMemo a memo = some (b, memo') ∧ t.isAccepted a = some b := by
  have linked := transposed.mirrored.toLinked
  have nodup := linked.dfs_nodup hash
  have inside : ∀ h ∈ s.dag.dfs hash, h ∈ s.dag.g := fun h member => DAG.dfs_mem member
  constructor
  · obtain ⟨new, memo, s', rounds, loop, _⟩ :=
      backed.acceptLoop linked built _ nodup inside
    refine ⟨new, s', by rw [computeAcceptedTxs, rounds]; rfl, loop.nodup, fun u => ?_, loop.marked⟩
    have ancestor : (hash ∈ s.dag.g ∧ s.dag.Ancestor hash u) ↔
        (u ∈ s.dag.g ∧ s.dag.Ancestor hash u) := by
      refine and_congr_left fun path =>
        ⟨fun root => linked.ancestor_mem root path, fun member => ?_⟩
      rcases Relation.ReflTransGen.cases_head path with rfl | ⟨_, edge, _⟩
      · exact member
      · exact edge.mem
    rw [loop.exactly, linked.mem_dfs, ancestor]
    refine and_congr_right fun member => ?_
    rw [backed.verdict_iff linked member.1, and_comm]
  · intro done a rest split
    rw [split] at nodup inside
    have before : ∀ h ∈ done, h ∈ s.dag.g :=
      fun h listed => inside h (List.mem_append_left _ listed)
    obtain ⟨new, memo, t, rounds, loop, _⟩ :=
      backed.acceptLoop linked built done (List.nodup_append.mp nodup).1 before
    refine ⟨new, memo, t, rounds, ?_⟩
    have sound : t.Remembers memo := fun h b found =>
      (loop.memo h b found).trans (loop.verdict_iff linked before h).symm
    have current := loop.marked.backed backed
    obtain ⟨b, plain, _⟩ := current.isAccepted_eq a
    have same := current.isAcceptedMemo_eq sound a
    rw [plain] at same
    obtain ⟨⟨_, memo'⟩, answer, rfl⟩ := Option.map_eq_some_iff.mp same
    exact ⟨_, memo', answer, plain⟩

/-- A transaction and its parent, both with the confidence of a singleton. -/
def ripePair (parent child : Tx Digest) : Sleet Digest :=
  let sets : HashMap Digest (ConflictSet Digest) := [parent, child].foldl
    (fun m tx => m.insert tx.hash { ConflictSet.new tx.hash with cnt := BETA1 }) ∅
  let edges (p c : List Digest) : HashMap Digest (List Digest) :=
    ((∅ : HashMap Digest (List Digest)).insert parent.hash p).insert child.hash c
  { Sleet.new ascendingOrder Actor.node "node" [] with
    knownTxs := ((∅ : TxDb Digest).insertTx parent).insertTx child
    conflictGraph := ⟨∅, ∅, sets, []⟩
    dag := ⟨edges [] [parent.hash], edges [child.hash] [], ∅⟩ }

/-- Both are accepted by one call. -/
theorem computeAcceptedTxs_memo_pair :
    let t := Actor.transfer [] 1
    let u := Actor.transfer [t] 2
    ∃ new s', (ripePair t u).computeAcceptedTxs u.hash = some (new, s') ∧ new.length = 2 ∧
      new.Nodup ∧ Marked (ripePair t u) new s' := by
  intro t u
  have transposed : (ripePair t u).dag.Transposed := by decide +kernel
  have keys : ∀ v ∈ (ripePair t u).dag.g.keys,
      v ∈ (ripePair t u).conflictGraph.cs ∧ v ∈ (ripePair t u).knownTxs := by
    decide +kernel
  have backed : Backed (ripePair t u) :=
    ⟨fun v member => (keys v (Finmap.mem_keys.mpr member)).1,
      fun v member => (keys v (Finmap.mem_keys.mpr member)).2⟩
  have two : ((ripePair t u).computeAcceptedTxs u.hash).any (fun r =>
      decide (r.1.length = 2)) = true := by
    decide +kernel
  obtain ⟨new, s', done, nodup, _, marked⟩ :=
    (computeAcceptedTxs_memo transposed backed .new u.hash).1
  rw [done] at two
  exact ⟨new, s', done, of_decide_eq_true two, nodup, marked⟩

end Subzero.Sleet
