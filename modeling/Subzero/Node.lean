import Mathlib.Data.List.Perm.Subperm
import Subzero.Hail.Sample
import Subzero.Hail.Steps
import Subzero.Sleet.Finality

/-! The two actors of one node that reach consensus. Sleet sends hail the cells that it
accepted, batch by batch, and hail puts a batch into a block if it is its turn. Every
accepted transaction is in one place on this way, so no cell is proposed more often than
it was accepted. -/
namespace Subzero

/-- `inbox` has the `AcceptedCells` messages that hail has not handled. -/
structure Node (H : Type) where
  sleet : Actor H
  hail : HailActor H
  inbox : List (List (Cell H))

/-- Messages from sleet to hail are delivered in any order. -/
inductive NodeEvent (H : Type) where
  | sleet (order : HashOrder H) (e : Event H)
  | hail (order : HailOrder H) (e : HailEvent H)
  | acceptedCells (i : Nat)

namespace Node
variable {H : Type} [LinearOrder H] [Blake3 H] [BlockDigest H] [Sortition H]

def started (s : Sleet H) (nodeId : Id) : Node H := ⟨.started s, .started nodeId, []⟩

/-- One step. What sleet sends to hail goes to the inbox, and hail has its accepted cells
from there only. -/
def step (n : Node H) : NodeEvent H → Option (Node H)
  | .sleet order e =>
    (n.sleet.step (order, e)).map fun sleet =>
      { n with sleet := sleet, inbox := n.inbox ++ sleet.hail.drop n.sleet.hail.length }
  | .hail _ (.acceptedCells _) => none
  | .hail order e => (n.hail.step (order, e)).map fun hail => { n with hail := hail }
  | .acceptedCells i =>
    match n.inbox[i]? with
    | none => none
    | some cells =>
      (n.hail.onAcceptedCells cells).map fun hail =>
        { n with hail := hail, inbox := n.inbox.eraseIdx i }

/-- Events of sleet spare final statuses. -/
def Spares (n : Node H) : NodeEvent H → Prop
  | .sleet _ e => n.sleet.Spares e
  | _ => True

/-- The hashes of accepted transactions are in messages that sleet has not handled, or in
batches that it has sent. -/
structure Forwarded (w : Actor H) : Prop where
  sound : w.Sound
  accounted : w.accepted.Perm (Actor.posted w.mailbox ++ w.hail.flatten.map Cell.hash)

omit [BlockDigest H] [Sortition H] in
/-- A step sends at most one batch, which it takes from the messages. -/
theorem Forwarded.step {w w' : Actor H} {order : HashOrder H} {e : Event H}
    (forwarded : Forwarded w) (taken : w.step (order, e) = some w') :
    Forwarded w' ∧ ∃ batches, w'.hail = w.hail ++ batches := by
  have move := Actor.step_move taken
  have sound := move.sound forwarded.sound
  have quiet : w'.hail = w.hail → w'.accepted = w.accepted →
      (Actor.posted w'.mailbox).Perm (Actor.posted w.mailbox) →
      Forwarded w' ∧ ∃ batches, w'.hail = w.hail ++ batches := by
    intro hail accepted posted
    refine ⟨⟨sound, ?_⟩, [], by simp [hail]⟩
    rw [accepted, hail]
    exact forwarded.accounted.trans (posted.symm.append_right _)
  cases move with
  | receives _ _ _ hail accepted posted => exact quiet hail accepted posted
  | incomplete _ _ _ hail accepted posted => exact quiet hail accepted posted
  | fetches _ _ _ hail accepted posted => exact quiet hail accepted (.of_eq posted)
  | @complete _ _ new _ _ _ hail accepted posted =>
    refine ⟨⟨sound, ?_⟩, [], by simp [hail]⟩
    rw [accepted, hail]
    calc w.accepted ++ new
      _ |>.Perm ((Actor.posted w.mailbox ++ w.hail.flatten.map Cell.hash) ++ new) :=
        forwarded.accounted.append_right new
      _ |>.Perm ((Actor.posted w.mailbox ++ new) ++ w.hail.flatten.map Cell.hash) := by
        simpa using List.perm_append_comm.append_left (Actor.posted w.mailbox)
      _ |>.Perm (Actor.posted w'.mailbox ++ w.hail.flatten.map Cell.hash) :=
        posted.symm.append_right _
  | @newAccepted hashes cells _ handled _ hail accepted posted =>
    obtain ⟨_, _, _, _, named⟩ := Sleet.newAccepted_sweep order forwarded.sound.keyed handled
    have same := named.hashes forwarded.sound.keyed
    refine ⟨⟨sound, ?_⟩, [cells], hail⟩
    rw [accepted, hail, List.flatten_append, List.map_append, List.flatten_singleton, same]
    calc w.accepted
      _ |>.Perm (Actor.posted w.mailbox ++ w.hail.flatten.map Cell.hash) := forwarded.accounted
      _ |>.Perm ((hashes ++ Actor.posted w'.mailbox) ++ w.hail.flatten.map Cell.hash) :=
        posted.symm.append_right _
      _ |>.Perm (Actor.posted w'.mailbox ++ (w.hail.flatten.map Cell.hash ++ hashes)) := by
        rw [List.append_assoc, ← List.append_assoc (Actor.posted w'.mailbox)]
        exact List.perm_append_comm

/-- Where the batches of sleet are: some were handled by hail, and the others are in its
inbox. A proposal has the cells of a batch that was handled. -/
structure Conserved (n : Node H) (handled : List (List (Cell H))) : Prop where
  forwarded : Forwarded n.sleet
  batches : n.sleet.hail.Perm (handled ++ n.inbox)
  proposed : (n.hail.proposed.map Block.cells).Sublist handled

omit [LinearOrder H] [Blake3 H] [BlockDigest H] [Sortition H] in
theorem onAcceptedCells_proposed {w w' : HailActor H} {cells : List (Cell H)}
    (taken : w.onAcceptedCells cells = some w') :
    (w'.proposed.map Block.cells).Sublist (w.proposed.map Block.cells ++ [cells]) := by
  obtain ⟨⟨block, s⟩, offered, rfl⟩ := Option.map_eq_some_iff.mp taken
  change ((w.proposed ++ block.toList).map Block.cells).Sublist _
  rw [List.map_append]
  refine List.Sublist.append_left ?_ _
  unfold Hail.acceptedCells at offered
  split at offered
  · cases offered
    exact List.nil_sublist _
  · split at offered
    · cases offered
      exact List.nil_sublist _
    · split at offered
      · cases offered
      · cases offered
        exact List.Sublist.refl _

omit [Blake3 H] in
/-- Only accepted cells lead to a proposal. -/
theorem hail_proposed {w w' : HailActor H} {order : HailOrder H} {e : HailEvent H}
    (other : ∀ cells, e ≠ .acceptedCells cells) (taken : w.step (order, e) = some w') :
    w'.proposed = w.proposed := by
  have none_proposed : ∀ cells, w.task e ≠ .propose cells := by
    intro cells same
    cases e with
    | acceptedCells cells' => exact other cells' rfl
    | deliver i =>
      simp only [HailActor.task] at same
      split at same <;> cases same
    | _ => cases same
  have does := HailActor.step_does taken
  generalize w.task e = task at does none_proposed
  cases does with
  | propose => exact absurd rfl (none_proposed _)
  | _ => rfl

theorem step_hail {n n' : Node H} {order : HailOrder H} {e : HailEvent H}
    (taken : n.step (.hail order e) = some n') :
    (∀ cells, e ≠ .acceptedCells cells) ∧
      ∃ w, n.hail.step (order, e) = some w ∧ n' = { n with hail := w } := by
  have other : ∀ cells, e ≠ .acceptedCells cells := by
    rintro cells rfl
    cases taken
  have own : (n.hail.step (order, e)).map (fun hail => { n with hail := hail }) = some n' := by
    cases e <;> first | exact taken | cases taken
  obtain ⟨w, moved, rfl⟩ := Option.map_eq_some_iff.mp own
  exact ⟨other, w, moved, rfl⟩

theorem Conserved.step {n n' : Node H} {e : NodeEvent H} {handled : List (List (Cell H))}
    (conserved : Conserved n handled) (taken : n.step e = some n') :
    ∃ handled', Conserved n' handled' := by
  obtain ⟨forwarded, batches, proposed⟩ := conserved
  cases e with
  | sleet order e =>
    obtain ⟨w, moved, rfl⟩ := Option.map_eq_some_iff.mp taken
    obtain ⟨forwarded', sent, hail⟩ := forwarded.step moved
    refine ⟨handled, forwarded', ?_, proposed⟩
    simp only [hail, List.drop_left]
    rw [← List.append_assoc]
    exact batches.append_right sent
  | hail order e =>
    obtain ⟨other, w, moved, rfl⟩ := step_hail taken
    exact ⟨handled, forwarded, batches, (hail_proposed other moved).symm ▸ proposed⟩
  | acceptedCells i =>
    simp only [Node.step] at taken
    split at taken
    · cases taken
    · rename_i cells there
      obtain ⟨w, offered, rfl⟩ := Option.map_eq_some_iff.mp taken
      obtain ⟨inside, rfl⟩ := List.getElem?_eq_some_iff.mp there
      have moved := List.getElem_cons_eraseIdx_perm inside
      refine ⟨handled ++ [n.inbox[i]], forwarded, ?_, ?_⟩
      · rw [List.append_assoc, List.singleton_append]
        exact batches.trans (moved.symm.append_left handled)
      · exact (onAcceptedCells_proposed offered).trans (proposed.append_right _)

section Sample

/-- A condition that can be evaluated and is enough for the statuses to be spared. -/
def Plain (n : Node Digest) : NodeEvent Digest → Prop
  | .sleet _ e => n.sleet.Plain e
  | .hail _ _ => True
  | .acceptedCells _ => True

instance (n : Node Digest) (e : NodeEvent Digest) : Decidable (n.Plain e) :=
  match e with
  | .sleet _ _ => inferInstanceAs (Decidable (Actor.Plain _ _))
  | .hail _ _ => .isTrue trivial
  | .acceptedCells _ => .isTrue trivial

theorem Plain.spares {n : Node Digest} {e : NodeEvent Digest} (plain : n.Plain e) :
    n.Spares e := by
  cases e with
  | sleet order e => exact Actor.Plain.spares plain
  | hail => exact trivial
  | acceptedCells => exact trivial

end Sample

end Node
end Subzero
