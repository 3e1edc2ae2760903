import Mathlib.Algebra.Order.Floor.Semiring
import Mathlib.Data.Rat.Floor
import Subzero.Cell

/-! The reservoir of ice: what this node believes of its peers, and the votes of
other peers that are collected until a quorum is complete. -/
namespace Subzero.Ice

/-- Percent convergence required for a vote. -/
def ALPHA : ℚ := 1 / 2
/-- The fanout. -/
def K : Nat := 2

/-- The least number of votes that is a quorum. -/
theorem threshold : ⌈(K : ℚ) * ALPHA⌉₊ = 1 := by norm_num [K, ALPHA]
/-- Safe precommit. -/
def BETA1 : Nat := 3

inductive Choice where
  | live
  | faulty
  deriving DecidableEq

structure Outcome where
  peerId : Id
  choice : Choice
  deriving DecidableEq

structure Quorum where
  choices : HashMap Id Choice
  deriving DecidableEq

namespace Quorum

def new : Quorum := ⟨∅⟩

def len (q : Quorum) : Nat := q.choices.keys.card

def contains (q : Quorum) (id : Id) : Bool := decide (id ∈ q.choices)

def insert (q : Quorum) (observerId : Id) (choice : Choice) : Quorum :=
  ⟨q.choices.insert observerId choice⟩

/-- The observers that made a choice. -/
def votes (q : Quorum) (choice : Choice) : Finset Id :=
  q.choices.keys.filter fun id => q.choices.lookup id = some choice

/-- More than `⌈K * ALPHA⌉` votes decide. -/
def decide (q : Quorum) : Option Choice :=
  if ⌈(K : ℚ) * ALPHA⌉₊ < (q.votes .live).card then some .live
  else if ⌈(K : ℚ) * ALPHA⌉₊ < (q.votes .faulty).card then some .faulty
  else none

end Quorum

/-- The address of a peer, the choice made for it, and the conviction in it. -/
structure Entry where
  ip : SocketAddr
  choice : Choice
  conviction : Nat
  deriving DecidableEq

structure Reservoir where
  quorums : HashMap Id Quorum
  decisions : HashMap Id Entry
  randomQueue : List (Id × Entry)
  nbootstrapped : Nat

namespace Reservoir

def new : Reservoir := ⟨∅, ∅, [], 0⟩

def len (r : Reservoir) : Nat := r.decisions.keys.card

def getDecision (r : Reservoir) (id : Id) : Option Entry := r.decisions.lookup id

/-- The endpoint of a peer if its choice has conviction at least `BETA1`. -/
def getEndpointHavingStrongChoice (r : Reservoir) (id : Id) (choice : Choice) :
    Option SocketAddr :=
  match r.decisions.lookup id with
  | some e => if e.choice = choice ∧ BETA1 ≤ e.conviction then some e.ip else none
  | none => none

def getLiveEndpoint (r : Reservoir) (id : Id) : Option SocketAddr :=
  r.getEndpointHavingStrongChoice id .live

def getLivePeers (order : Listing Id) (r : Reservoir) : List (Id × SocketAddr) :=
  (order.list r.decisions.keys).filterMap fun id => (r.getLiveEndpoint id).map fun ip => (id, ip)

/-- Rewrite the decision on a peer, if there is one. -/
def modify (r : Reservoir) (id : Id) (f : Entry → Entry) : Reservoir :=
  match r.decisions.lookup id with
  | some e => { r with decisions := r.decisions.insert id (f e) }
  | none => r

def insert (r : Reservoir) (peerId : Id) (ip : SocketAddr) (choice : Choice)
    (conviction : Nat) : Reservoir :=
  { r with decisions := r.decisions.insert peerId ⟨ip, choice, conviction⟩ }

def insertNew (r : Reservoir) (peerId : Id) (ip : SocketAddr) (choice : Choice)
    (conviction : Nat) : Reservoir :=
  match r.decisions.lookup peerId with
  | some _ => r
  | none => r.insert peerId ip choice conviction

def setChoice (r : Reservoir) (peerId : Id) (choice : Choice) : Reservoir :=
  r.modify peerId fun e => { e with choice := choice, conviction := 0 }

/-- Also returns whether the reservoir has obtained a bootstrap quorum. -/
def updateChoice (r : Reservoir) (peerId : Id) (choice : Choice) : Bool × Reservoir :=
  (decide (K ≤ r.nbootstrapped),
    r.modify peerId fun e =>
      if e.choice ≠ choice then { e with choice := choice, conviction := 0 } else e)

/-- The order is the shuffle: entries with conviction at least `BETA1` are left
out, and an empty queue is not installed. -/
def permute (order : Listing Id) (r : Reservoir) : Option Reservoir :=
  let queue := (order.list r.decisions.keys).filterMap fun id =>
    match r.decisions.lookup id with
    | some e => if BETA1 ≤ e.conviction then none else some (id, e)
    | none => none
  if queue.isEmpty then none else some { r with randomQueue := queue }

/-- Draw up to `n` more entries from the end of the queue. The queue is shuffled
anew whenever it is empty; `orders n` is the shuffle with `n` entries to go. -/
def draw (orders : Nat → Listing Id) : Nat → Reservoir → HashMap Id Entry →
    HashMap Id Entry × Reservoir
  | 0, r, samples => (samples, r)
  | n + 1, r, samples =>
    let shuffled := if r.randomQueue.isEmpty then r.permute (orders (n + 1)) else some r
    match shuffled with
    | none => (samples, r)
    | some r =>
      match r.randomQueue.getLast? with
      | none => (samples, r)
      | some (id, e) =>
        draw orders n { r with randomQueue := r.randomQueue.dropLast } (samples.insert id e)

def sample (orders : Nat → Listing Id) (r : Reservoir) : HashMap Id Entry × Reservoir :=
  if 0 < r.decisions.keys.card then draw orders K r ∅ else (∅, r)

def resetFaultyDecision (r : Reservoir) (id : Id) : Reservoir :=
  r.modify id fun e =>
    match e.choice with
    | .faulty => { e with choice := .live, conviction := 0 }
    | .live => e

def resetConviction (r : Reservoir) (id : Id) : Reservoir :=
  r.modify id fun e => { e with conviction := 0 }

/-- A responder votes once in the quorum on a peer. -/
def processQuorum (r : Reservoir) (responderId peerId : Id) (choice : Choice) :
    Quorum × Reservoir :=
  match r.quorums.lookup peerId with
  | some quorum =>
    if quorum.contains responderId then (quorum, r)
    else
      let quorum := quorum.insert responderId choice
      (quorum, { r with quorums := r.quorums.insert peerId quorum })
  | none =>
    let quorum := Quorum.new.insert responderId choice
    (quorum, { r with quorums := r.quorums.insert peerId quorum })

/-- What a decision makes of the entry of a peer and of the bootstrap counter. -/
def confirm (decision : Choice) (e : Entry) (nbootstrapped : Nat) : Entry × Nat :=
  if decision ≠ e.choice then ({ e with choice := decision, conviction := 0 }, nbootstrapped)
  else
    let e := { e with conviction := e.conviction + 1 }
    if 0 < nbootstrapped ∧ e.choice = .faulty ∧ BETA1 ≤ e.conviction then (e, nbootstrapped - 1)
    else if e.choice = .live ∧ BETA1 ≤ e.conviction then (e, nbootstrapped + 1)
    else (e, nbootstrapped)

def processDecision (r : Reservoir) (id : Id) (quorum : Quorum) : Bool × Reservoir :=
  match quorum.decide with
  | some decision =>
    let r :=
      match r.decisions.lookup id with
      | some e =>
        let (e, nbootstrapped) := confirm decision e r.nbootstrapped
        { r with decisions := r.decisions.insert id e, nbootstrapped := nbootstrapped }
      | none => r
    (decide (K ≤ r.nbootstrapped), { r with quorums := r.quorums.erase id })
  | none => (false, { r with quorums := r.quorums.erase id }.resetConviction id)

/-- Returns whether the choice voted for is now a strong one. -/
def processOutcome (r : Reservoir) (responderId : Id) (outcome : Outcome) : Bool × Reservoir :=
  let (q, r) := r.processQuorum responderId outcome.peerId outcome.choice
  if K ≤ q.len then
    let (bootstrapped, r) := r.processDecision outcome.peerId q
    (bootstrapped && (r.getEndpointHavingStrongChoice outcome.peerId outcome.choice).isSome, r)
  else (false, r)

/-- The outcomes one after the other, and whether one of them changed a status. -/
def processOutcomes (responderId : Id) : List Outcome → Reservoir → Bool × Reservoir
  | [], r => (false, r)
  | outcome :: outcomes, r =>
    let (changed, r) := r.processOutcome responderId outcome
    let (later, r) := processOutcomes responderId outcomes r
    (changed || later, r)

/-- Returns the bootstrap status and whether the status of a peer has changed. -/
def fill (r : Reservoir) (responderId : Id) (outcomes : List Outcome) :
    (Bool × Bool) × Reservoir :=
  let (changed, r) := processOutcomes responderId outcomes (r.resetFaultyDecision responderId)
  ((decide (K ≤ r.nbootstrapped), changed), r)

/-- The quorum that an outcome completes, if it does. -/
def completed (r : Reservoir) (responderId : Id) (outcome : Outcome) : Option Quorum :=
  let q := (r.processQuorum responderId outcome.peerId outcome.choice).1
  if K ≤ q.len then some q else none

end Reservoir

/-- What the handlers do with the reservoir. Entries are put in with conviction 0. -/
inductive Operation where
  | insert (peerId : Id) (ip : SocketAddr) (choice : Choice)
  | insertNew (peerId : Id) (ip : SocketAddr) (choice : Choice)
  | setChoice (peerId : Id) (choice : Choice)
  | updateChoice (peerId : Id) (choice : Choice)
  | sample (orders : Nat → Listing Id)
  | fill (responderId : Id) (outcomes : List Outcome)

namespace Reservoir

def perform (r : Reservoir) : Operation → Reservoir
  | .insert peerId ip choice => r.insert peerId ip choice 0
  | .insertNew peerId ip choice => r.insertNew peerId ip choice 0
  | .setChoice peerId choice => r.setChoice peerId choice
  | .updateChoice peerId choice => (r.updateChoice peerId choice).2
  | .sample orders => (r.sample orders).2
  | .fill responderId outcomes => (r.fill responderId outcomes).2

section Effects
variable (r : Reservoir)

theorem lookup_modify (id : Id) (f : Entry → Entry) (k : Id) :
    (r.modify id f).decisions.lookup k =
      if k = id then (r.decisions.lookup id).map f else r.decisions.lookup k := by
  unfold modify
  split
  · rename_i e known
    simp [HashMap.lookup_insert_ite, known]
  · rename_i unknown
    by_cases same : k = id
    · subst same
      simp [unknown]
    · simp [same]

@[simp] theorem modify_nbootstrapped (id : Id) (f : Entry → Entry) :
    (r.modify id f).nbootstrapped = r.nbootstrapped := by
  unfold modify
  split <;> rfl

@[simp] theorem modify_quorums (id : Id) (f : Entry → Entry) :
    (r.modify id f).quorums = r.quorums := by
  unfold modify
  split <;> rfl

/-- Only the queue changes while entries are drawn from it. -/
theorem draw_queue (orders : Nat → Listing Id) (n : Nat) (samples : HashMap Id Entry) :
    ∃ queue, (draw orders n r samples).2 = { r with randomQueue := queue } := by
  induction n generalizing r samples with
  | zero => exact ⟨r.randomQueue, rfl⟩
  | succ n ih =>
    have shuffled : ∀ r', (if r.randomQueue.isEmpty then r.permute (orders (n + 1)) else some r) =
        some r' → ∃ queue, r' = { r with randomQueue := queue } := by
      intro r' h
      split at h
      · simp only [permute] at h
        split at h
        · contradiction
        · exact ⟨_, (Option.some.inj h).symm⟩
      · exact ⟨r.randomQueue, (Option.some.inj h).symm⟩
    simp only [draw]
    split
    · exact ⟨r.randomQueue, rfl⟩
    · rename_i r' found
      obtain ⟨queue, rfl⟩ := shuffled r' found
      split
      · exact ⟨queue, rfl⟩
      · exact ih { r with randomQueue := queue.dropLast } _

theorem sample_queue (orders : Nat → Listing Id) :
    ∃ queue, (r.sample orders).2 = { r with randomQueue := queue } := by
  unfold sample
  split
  · exact draw_queue r orders K ∅
  · exact ⟨r.randomQueue, rfl⟩

variable (responderId peerId : Id) (choice : Choice)

@[simp] theorem processQuorum_decisions :
    (r.processQuorum responderId peerId choice).2.decisions = r.decisions := by
  unfold processQuorum
  split
  · split <;> rfl
  · rfl

@[simp] theorem processQuorum_nbootstrapped :
    (r.processQuorum responderId peerId choice).2.nbootstrapped = r.nbootstrapped := by
  unfold processQuorum
  split
  · split <;> rfl
  · rfl

theorem lookup_processQuorum (k : Id) :
    (r.processQuorum responderId peerId choice).2.quorums.lookup k =
      if k = peerId then some (r.processQuorum responderId peerId choice).1
      else r.quorums.lookup k := by
  unfold processQuorum
  split
  · rename_i quorum known
    split
    · by_cases same : k = peerId
      · subst same
        simp [known]
      · simp [same]
    · exact HashMap.lookup_insert_ite _ _ _ _
  · exact HashMap.lookup_insert_ite _ _ _ _

end Effects

end Reservoir

/-- What a completed quorum makes of an entry: a decision for the other choice flips
it, one for its choice adds conviction, and without a decision conviction is lost. -/
def Entry.judged (decision : Option Choice) (e : Entry) : Entry :=
  match decision with
  | none => { e with conviction := 0 }
  | some d =>
    if d ≠ e.choice then { e with choice := d, conviction := 0 }
    else { e with conviction := e.conviction + 1 }

namespace Reservoir

theorem confirm_entry (d : Choice) (e : Entry) (n : Nat) :
    (confirm d e n).1 = e.judged (some d) := by
  unfold confirm Entry.judged
  by_cases flips : d ≠ e.choice
  · simp only [if_pos flips]
  · simp only [if_neg flips]
    split
    · rfl
    · split <;> rfl

/-- The counter after a completed quorum. -/
def counted (decision : Option Choice) (entry : Option Entry) (n : Nat) : Nat :=
  match decision, entry with
  | some d, some e => (confirm d e n).2
  | _, _ => n

section Completion
variable (r : Reservoir) (id : Id) (q : Quorum)

theorem lookup_processDecision (k : Id) :
    (r.processDecision id q).2.decisions.lookup k =
      if k = id then (r.decisions.lookup k).map (.judged q.decide) else r.decisions.lookup k := by
  unfold processDecision
  split
  · rename_i d decided
    by_cases same : k = id
    · subst same
      cases known : r.decisions.lookup k <;> simp [decided, known, confirm_entry]
    · cases known : r.decisions.lookup id <;> simp [same]
  · rename_i undecided
    rw [undecided]
    simp only [resetConviction, lookup_modify]
    by_cases same : k = id
    · subst same
      rw [if_pos rfl, if_pos rfl]
      rfl
    · rw [if_neg same, if_neg same]

theorem processDecision_quorums : (r.processDecision id q).2.quorums = r.quorums.erase id := by
  unfold processDecision
  split
  · cases r.decisions.lookup id <;> rfl
  · simp [resetConviction]

theorem processDecision_nbootstrapped : (r.processDecision id q).2.nbootstrapped =
    counted q.decide (r.decisions.lookup id) r.nbootstrapped := by
  unfold processDecision
  split
  · rename_i d decided
    cases known : r.decisions.lookup id <;> simp [counted, decided]
  · rename_i undecided
    simp [resetConviction, counted, undecided]

end Completion

section Outcomes
variable {r : Reservoir} {responderId : Id} {outcome : Outcome}

/-- An outcome that completes no quorum is only recorded. -/
theorem processOutcome_open (pending : r.completed responderId outcome = none) :
    (r.processOutcome responderId outcome).2 =
      (r.processQuorum responderId outcome.peerId outcome.choice).2 := by
  simp only [completed] at pending
  split at pending
  · contradiction
  · rename_i short
    simp only [processOutcome, if_neg short]

theorem processOutcome_complete {q : Quorum} (done : r.completed responderId outcome = some q) :
    (r.processOutcome responderId outcome).2 =
      ((r.processQuorum responderId outcome.peerId outcome.choice).2.processDecision
        outcome.peerId q).2 := by
  simp only [completed] at done
  split at done
  · rename_i enough
    cases Option.some.inj done
    simp only [processOutcome, if_pos enough]
  · contradiction

end Outcomes
end Reservoir
end Subzero.Ice
