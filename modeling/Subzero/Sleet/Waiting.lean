import Subzero.Sleet.Exchange

/-! The pending queries. A pass over them takes the last one first and each one once, so that a
query whose parent is pending before it in the list is kept and stays pending when the parent
has been taken in. -/
namespace Subzero.Sleet
variable {H : Type} [DecidableEq H] [Blake3 H]

section Rounds
variable {order : HashOrder H} {c c' : Checked H}

/-- What is sent for a query that leaves the list. -/
def told (p : Pending H) : List H := if p.closed then [] else [p.tx.hash]

omit [DecidableEq H] in
theorem Checked.answer_told (c : Checked H) (p : Pending H) (outcome : Bool) :
    (c.answer p outcome).remaining = c.remaining ∧
      (c.answer p outcome).votes.map Vote.txHash = c.votes.map Vote.txHash ++ told p := by
  unfold Checked.answer told
  split <;> simp

/-- A query is answered, dropped or kept. -/
theorem checkRound_cases {p : Pending H} (done : checkRound order c p = some c') :
    ((c.sleet.hasParents p.tx = true ∨ p.closed = true) ∧ c'.remaining = c.remaining ∧
      c'.votes.map Vote.txHash = c.votes.map Vote.txHash ++ told p) ∨
    ¬ c.sleet.hasParents p.tx = true ∧ p.closed = false ∧
      c' = { c with remaining := c.remaining ++ [p] } := by
  unfold checkRound at done
  split at done
  · rename_i parents
    refine .inl ⟨.inl parents, ?_⟩
    split at done
    · obtain ⟨outcome, _, rfl⟩ := Option.map_eq_some_iff.mp done
      exact Checked.answer_told _ p outcome
    · cases done
      exact Checked.answer_told _ p false
    · cases done
  · rename_i missing
    split at done
    · rename_i closed
      cases done
      simp [told, closed]
    · rename_i closed
      cases done
      exact .inr ⟨missing, Bool.eq_false_iff.mpr closed, rfl⟩

theorem checkRound_kept {p q : Pending H} (done : checkRound order c p = some c') :
    q ∈ c'.remaining ↔
      q ∈ c.remaining ∨ q = p ∧ p.closed = false ∧ ¬ c.sleet.hasParents p.tx = true := by
  rcases checkRound_cases done with ⟨parents | closed, same, _⟩ | ⟨missing, closed, rfl⟩
  · simp [same, parents]
  · simp [same, closed]
  · simp [closed, missing]

end Rounds

section Turns
variable {order : HashOrder H} {s : Sleet H} {ps : List (Pending H)}

/-- What comes of the queries of a list, the last of which is looked at first. -/
def arrivals (s : Sleet H) (ps : List (Pending H)) : Intake H :=
  ps.foldr (fun p i => i.receive s p.tx) ⟨[], []⟩

/-- An open query that is supplied after the pass was supplied at its turn. -/
def Timely (s : Sleet H) (ps : List (Pending H)) : Prop :=
  ∀ p later, p :: later <:+ ps → p.closed = false →
    s.Supplied (s.arrivals ps) p.tx → s.Supplied (s.arrivals later) p.tx

instance (s : Sleet H) (ps : List (Pending H)) : Decidable (s.Timely ps) :=
  decidable_of_iff (∀ l ∈ ps.tails, ∀ p ∈ l.head?, p.closed = false →
      s.Supplied (s.arrivals ps) p.tx → s.Supplied (s.arrivals l.tail) p.tx)
    ⟨fun all p later suffix => all (p :: later) ((List.mem_tails _ _).mpr suffix) p rfl,
      fun timely l listed p first => timely p l.tail (by
        rw [List.cons_head?_tail first]
        exact (List.mem_tails _ _).mp listed)⟩

/-- What a pass has done to the state, and which queries it has kept. -/
structure Popped (s : Sleet H) (ps : List (Pending H)) (c : Checked H) : Prop where
  took : Took s (s.arrivals ps) c.sleet
  kept : ∀ p, p ∈ c.remaining ↔ ∃ later, p :: later <:+ ps ∧ p.closed = false ∧
    ¬ s.Supplied (s.arrivals later) p.tx

/-- A query is looked at. It is kept if it is open and a parent has not come. -/
theorem Popped.round {c c' : Checked H} {p : Pending H} (popped : Popped s ps c)
    (round : checkRound order c p = some c') : Popped s (p :: ps) c' := by
  refine ⟨popped.took.receive (checkRound_receives round), fun q => ?_⟩
  rw [checkRound_kept round, popped.took.supplied_iff, popped.kept]
  constructor
  · rintro (⟨later, suffix, facts⟩ | ⟨rfl, facts⟩)
    · exact ⟨later, suffix.trans (List.suffix_cons p ps), facts⟩
    · exact ⟨ps, List.suffix_refl _, facts⟩
  · rintro ⟨later, suffix, facts⟩
    rcases List.suffix_cons_iff.mp suffix with same | inside
    · cases same
      exact .inr ⟨rfl, facts⟩
    · exact .inl ⟨later, inside, facts⟩

theorem Popped.loop {t : Sleet H} {c : Checked H} (start : Took s ⟨[], []⟩ t)
    (loop : ps.reverse.foldlM (checkRound order) ⟨t, [], [], []⟩ = some c) : Popped s ps c := by
  induction ps generalizing c with
  | nil =>
    cases loop
    exact ⟨start, by simp⟩
  | cons p ps ih =>
    rw [List.reverse_cons, List.foldlM_append] at loop
    obtain ⟨c₁, before, last⟩ := Option.bind_eq_some_iff.mp loop
    obtain ⟨c₂, round, same⟩ := foldlM_cons_some.mp last
    cases same
    exact (ih before).round round

end Turns

section Samples
open Actor

def child : Tx Digest := transfer [transfer [] 0] 1

def grandchild : Tx Digest := transfer [child] 2

/-- Its parent is unknown. -/
def orphan : Tx Digest := transfer [transfer [] 4] 3

end Samples

end Subzero.Sleet
