import Subzero.Lib.Run
import Subzero.Ice.Answers

/-! The alerts that ice sends to alpha. The flag of the actor follows the bootstrap
counter after every message, so a failed ping never finds them apart, and the
alerts of a faulty network alternate with those of a live one. -/
namespace Subzero.Ice

def Alert.isLive : Alert → Bool
  | .liveNetwork _ _ => true
  | .faultyNetwork => false

namespace Reservoir

theorem insertNew_nbootstrapped (r : Reservoir) (peerId : Id) (ip : SocketAddr) (choice : Choice)
    (conviction : Nat) :
    (r.insertNew peerId ip choice conviction).nbootstrapped = r.nbootstrapped := by
  unfold insertNew
  split <;> rfl

theorem sample_nbootstrapped (r : Reservoir) (orders : Nat → Listing Id) :
    (r.sample orders).2.nbootstrapped = r.nbootstrapped := by
  obtain ⟨queue, after⟩ := sample_queue r orders
  rw [after]

end Reservoir

namespace Actor

/-- The flag says whether the counter has reached `K`. -/
def InStep (ice : Actor) : Prop := ice.bootstrapped = decide (K ≤ ice.reservoir.nbootstrapped)

theorem bootstrap_nbootstrapped (ice : Actor) (peers : List (Id × SocketAddr)) :
    (ice.bootstrap peers).reservoir.nbootstrapped = ice.reservoir.nbootstrapped := by
  have loop : ∀ r : Reservoir, (peers.foldl (fun r p => r.insert p.1 p.2 .live 0) r).nbootstrapped =
      r.nbootstrapped := by
    induction peers with
    | nil => exact fun r => rfl
    | cons p peers ih => exact fun r => ih (r.insert p.1 p.2 .live 0)
  exact loop ice.reservoir

theorem sampleQueries_keeps (orders : Nat → Listing Id) (order : Listing Id) (ice : Actor)
    (sample : Id × SocketAddr) :
    (ice.sampleQueries orders order sample).2.bootstrapped = ice.bootstrapped ∧
    (ice.sampleQueries orders order sample).2.reservoir.nbootstrapped =
      ice.reservoir.nbootstrapped := by
  have inserted := ice.reservoir.insertNew_nbootstrapped sample.1 sample.2 .live 0
  unfold sampleQueries
  by_cases filled : 0 < (ice.reservoir.insertNew sample.1 sample.2 .live 0).len
  · simp only [if_pos filled, true_and]
    exact (Reservoir.sample_nbootstrapped _ orders).trans inserted
  · simp only [if_neg filled, true_and]
    exact inserted

/-- After an answer the flag is what `fill` reports. -/
theorem pingSuccess_flag (ice : Actor) (ack : Ack) :
    (ice.pingSuccess ack).2.bootstrapped = (ice.reservoir.fill ack.id ack.outcomes).1.1 ∧
    (ice.pingSuccess ack).2.reservoir = (ice.reservoir.fill ack.id ack.outcomes).2 ∧
    (ice.pingSuccess ack).1.bootstrapped = (ice.pingSuccess ack).2.bootstrapped := by
  cases reported : (ice.reservoir.fill ack.id ack.outcomes).1.1 <;>
    cases flag : ice.bootstrapped <;> simp [pingSuccess, reported, flag]

/-- The switch flips whenever the flag does, and from a live network only then. -/
theorem pingSuccess_flipped (ice : Actor) (ack : Ack) :
    (ice.bootstrapped ≠ (ice.pingSuccess ack).2.bootstrapped →
      (ice.pingSuccess ack).1.flipped = true) ∧
    ((ice.pingSuccess ack).1.flipped = true → (ice.pingSuccess ack).2.bootstrapped = false →
      ice.bootstrapped = true) := by
  cases reported : (ice.reservoir.fill ack.id ack.outcomes).1.1 <;>
    cases flag : ice.bootstrapped <;> simp [pingSuccess, reported, flag]

/-- What a message can do to the flag, and the alert that goes with it. -/
inductive Effect (ice : Actor) : Option Alert → Actor → Prop where
  | quiet {ice' : Actor} (same : ice'.bootstrapped = ice.bootstrapped) : Effect ice none ice'
  | live {ice' : Actor} (selfId : Id) (peers : List (Id × SocketAddr))
      (now : ice'.bootstrapped = true) : Effect ice (some (.liveNetwork selfId peers)) ice'
  | faulty {ice' : Actor} (before : ice.bootstrapped = true) (now : ice'.bootstrapped = false) :
      Effect ice (some .faultyNetwork) ice'

theorem sendPingSuccess_effect (order : Listing Id) (ice : Actor) (ack : Ack) :
    Effect ice (ice.sendPingSuccess order ack).1 (ice.sendPingSuccess order ack).2 := by
  obtain ⟨_, _, reported⟩ := pingSuccess_flag ice ack
  obtain ⟨flips, falls⟩ := pingSuccess_flipped ice ack
  unfold sendPingSuccess
  by_cases flipped : (ice.pingSuccess ack).1.flipped = true
  · by_cases now : (ice.pingSuccess ack).1.bootstrapped = true
    · simp only [if_pos flipped, if_pos now]
      exact .live _ _ (reported ▸ now)
    · simp only [if_pos flipped, if_neg now]
      have down : (ice.pingSuccess ack).2.bootstrapped = false := by
        rw [← reported]
        exact Bool.eq_false_iff.mpr now
      exact .faulty (falls flipped down) down
  · simp only [if_neg flipped]
    apply Effect.quiet
    by_contra differs
    exact flipped (flips (Ne.symm differs))

theorem InStep.of_same {ice ice' : Actor} (inStep : ice.InStep)
    (flag : ice'.bootstrapped = ice.bootstrapped)
    (counter : ice'.reservoir.nbootstrapped = ice.reservoir.nbootstrapped) : ice'.InStep := by
  unfold InStep at inStep ⊢
  rw [flag, counter, inStep]

theorem InStep.message {ice : Actor} (inStep : ice.InStep) (message : Message) :
    (ice.handle message).2.InStep ∧ Effect ice (ice.handle message).1 (ice.handle message).2 := by
  cases message with
  | ping queries =>
    have after : (processQueries ice.id queries ice.reservoir).2 = ice.reservoir := by
      rw [processQueries_eq]
    exact ⟨inStep.of_same rfl (congrArg _ after), .quiet rfl⟩
  | bootstrap peers =>
    exact ⟨inStep.of_same rfl (bootstrap_nbootstrapped ice peers), .quiet rfl⟩
  | sampleQueries orders order sample =>
    obtain ⟨flag, counter⟩ := sampleQueries_keeps orders order ice sample
    exact ⟨inStep.of_same flag counter, .quiet flag⟩
  | pingSuccess order ack =>
    obtain ⟨flag, reservoir, _⟩ := pingSuccess_flag ice ack
    have after : (ice.sendPingSuccess order ack).2 = (ice.pingSuccess ack).2 := by
      simp only [sendPingSuccess]
      split
      · split <;> rfl
      · rfl
    have synced : (ice.pingSuccess ack).2.InStep := by
      unfold InStep
      rw [flag, reservoir]
      rfl
    exact ⟨after ▸ synced, sendPingSuccess_effect order ice ack⟩
  | pingFailure id =>
    -- the flag equals the counter's verdict, which a failed ping does not change
    have silent : (ice.pingFailure id).1 = false := by
      unfold InStep at inStep
      simp [pingFailure, Reservoir.updateChoice, inStep]
    have alert : (ice.sendPingFailure id).1 = none := by
      simp [sendPingFailure, silent]
    constructor
    · exact inStep.of_same rfl (Reservoir.modify_nbootstrapped ..)
    · simp only [handle, alert]
      exact .quiet rfl

end Actor

section Alternation
variable {α : Type}

/-- Where an element can stand in a list that has grown at its end. -/
theorem snoc_split {l : List α} {a x : α} {before after : List α}
    (h : l ++ [a] = before ++ x :: after) :
    (after = [] ∧ l = before ∧ a = x) ∨
      ∃ rest, after = rest ++ [a] ∧ l = before ++ x :: rest := by
  rcases List.eq_nil_or_concat after with rfl | ⟨rest, z, rfl⟩
  · obtain ⟨same, last⟩ := List.append_inj' h rfl
    exact .inl ⟨rfl, same, List.cons.inj last |>.1⟩
  · rw [List.concat_eq_append, ← List.cons_append, ← List.append_assoc] at h
    obtain ⟨same, last⟩ := List.append_inj' h rfl
    obtain rfl : a = z := (List.cons.inj last).1
    exact .inr ⟨rest, List.concat_eq_append, same⟩

/-- After every alert of a faulty network there is one of a live network. -/
def Restored (alerts : List Alert) : Prop :=
  ∀ before after, alerts = before ++ .faultyNetwork :: after → ∃ a ∈ after, a.isLive = true

/-- Between any two alerts of a faulty network there is one of a live network. -/
def Alternates (alerts : List Alert) : Prop :=
  ∀ before between after,
    alerts = before ++ .faultyNetwork :: (between ++ .faultyNetwork :: after) →
    ∃ a ∈ between, a.isLive = true

theorem Restored.live (alerts : List Alert) {a : Alert} (live : a.isLive = true) :
    Restored (alerts ++ [a]) := by
  intro before after split
  rcases snoc_split split with ⟨_, _, rfl⟩ | ⟨rest, rfl, _⟩
  · contradiction
  · exact ⟨a, by simp, live⟩

theorem Alternates.live {alerts : List Alert} (alternates : Alternates alerts) {a : Alert}
    (live : a.isLive = true) : Alternates (alerts ++ [a]) := by
  intro before between after split
  rw [← List.cons_append, ← List.append_assoc] at split
  rcases snoc_split split with ⟨_, _, rfl⟩ | ⟨rest, _, rfl⟩
  · contradiction
  · exact alternates before between rest (by simp)

theorem Alternates.faulty {alerts : List Alert} (alternates : Alternates alerts)
    (restored : Restored alerts) : Alternates (alerts ++ [.faultyNetwork]) := by
  intro before between after split
  rw [← List.cons_append, ← List.append_assoc] at split
  rcases snoc_split split with ⟨_, rfl, _⟩ | ⟨rest, _, rfl⟩
  · exact restored before between rfl
  · exact alternates before between rest (by simp)

end Alternation

namespace Actor

def step (ice : Actor) (message : Message) : Option Actor := some (ice.handle message).2

/-- The alerts of a run, the oldest first. -/
def alerts (steps : List (Actor × Message)) : List Alert :=
  steps.filterMap fun x => (x.1.handle x.2).1

theorem alerts_next (steps : List (Actor × Message)) (ice : Actor) (message : Message) :
    alerts (steps ++ [(ice, message)]) = alerts steps ++ (ice.handle message).1.toList := by
  cases h : (ice.handle message).1 <;> simp [alerts, h]

/-- A faulty network is alerted only when the flag falls, so a live one must have been
alerted since the last time. -/
theorem alerts_invariant {id : Id} {ip : SocketAddr} {steps : List (Actor × Message)}
    {last : Actor} (run : Run step (new id ip .new) steps last) :
    last.InStep ∧ Alternates (alerts steps) ∧
      (last.bootstrapped = true → Restored (alerts steps)) := by
  induction run with
  | start =>
    refine ⟨rfl, ?_, ?_⟩
    · intro before between after split
      simp [alerts] at split
    · intro impossible
      contradiction
  | @next steps ice ice' message _ taken ih =>
    cases Option.some.inj taken
    obtain ⟨inStep, alternates, restored⟩ := ih
    obtain ⟨synced, effect⟩ := inStep.message message
    refine ⟨synced, ?_⟩
    rw [alerts_next]
    generalize (ice.handle message).1 = alert at effect
    cases effect with
    | quiet same =>
      rw [Option.toList_none, List.append_nil, same]
      exact ⟨alternates, restored⟩
    | live selfId peers now =>
      exact ⟨alternates.live rfl, fun _ => .live _ rfl⟩
    | faulty before now =>
      refine ⟨alternates.faulty (restored before), fun up => ?_⟩
      rw [now] at up
      contradiction

/-- The flag is in step with the counter after every message, an alert of a faulty
network comes from a step that takes the flag down, and between two of them there is
an alert of a live network. -/
theorem network_alerts_alternate {id : Id} {ip : SocketAddr} {steps : List (Actor × Message)}
    {last : Actor} (run : Run step (new id ip .new) steps last) :
    (∀ ice ∈ states steps last,
      ice.bootstrapped = decide (K ≤ ice.reservoir.nbootstrapped)) ∧
    (∀ x ∈ steps, (x.1.handle x.2).1 = some .faultyNetwork →
      x.1.bootstrapped = true ∧ (x.1.handle x.2).2.bootstrapped = false) ∧
    ∀ before between after,
      alerts steps = before ++ .faultyNetwork :: (between ++ .faultyNetwork :: after) →
      ∃ selfId peers, Alert.liveNetwork selfId peers ∈ between := by
  have all := run.relates (fun _ _ => True) (fun _ _ => trivial) InStep (fun _ _ => True) rfl
    (fun _ => trivial) (fun _ _ _ _ _ => trivial) (by
      intro ice message ice' inStep _ taken
      cases Option.some.inj taken
      exact ⟨(inStep.message message).1, trivial⟩)
  refine ⟨fun ice hice => (all.2 ice hice).1, ?_, ?_⟩
  · intro x taken alert
    have before : x.1 ∈ states steps last :=
      List.mem_append_left _ (List.mem_map.mpr ⟨x, taken, rfl⟩)
    obtain ⟨_, effect⟩ := (all.2 x.1 before).1.message x.2
    rw [alert] at effect
    cases effect with
    | faulty up down => exact ⟨up, down⟩
  · intro before between after split
    obtain ⟨alert, member, live⟩ := (alerts_invariant run).2.1 before between after split
    cases alert with
    | liveNetwork selfId peers => exact ⟨selfId, peers, member⟩
    | faultyNetwork => contradiction

section Sample

/-- Two responders answer that the peer 1 is live, or faulty, and one of their pings
fails in between. -/
def answersOn (choice : Choice) : List Message :=
  let order := ascending Id.key Id.key_injective
  [.pingSuccess order ⟨⟨8⟩, [⟨⟨1⟩, choice⟩]⟩, .pingFailure ⟨9⟩,
    .pingSuccess order ⟨⟨9⟩, [⟨⟨1⟩, choice⟩]⟩]

/-- The network is found live, faulty, live and faulty. -/
theorem network_alerts_alternate_twice : ∃ steps last,
    Run step (new ⟨0⟩ "node" .new) steps last ∧
    alerts steps = [.liveNetwork ⟨0⟩ [(⟨1⟩, "a")]] ++ .faultyNetwork ::
      ([.liveNetwork ⟨0⟩ [(⟨1⟩, "a")]] ++ .faultyNetwork :: []) ∧
    ∃ selfId peers, Alert.liveNetwork selfId peers ∈ [Alert.liveNetwork ⟨0⟩ [(⟨1⟩, "a")]] := by
  have found : (exec step (new ⟨0⟩ "node" .new) ([.bootstrap [(⟨1⟩, "a")], .ping []] ++
      (List.replicate 4 (answersOn .live)).flatten ++
      (List.replicate 4 (answersOn .faulty)).flatten ++
      (List.replicate 4 (answersOn .live)).flatten ++
      (List.replicate 4 (answersOn .faulty)).flatten)).any (fun run => decide (
        alerts run.1 = [.liveNetwork ⟨0⟩ [(⟨1⟩, "a")]] ++ .faultyNetwork ::
          ([.liveNetwork ⟨0⟩ [(⟨1⟩, "a")]] ++ .faultyNetwork :: []))) = true := by
    decide +kernel
  obtain ⟨steps, last, run, facts⟩ := exec_any found
  have split := of_decide_eq_true facts
  exact ⟨steps, last, run, split, (network_alerts_alternate run).2.2 _ _ _ split⟩

end Sample
end Actor
end Subzero.Ice
