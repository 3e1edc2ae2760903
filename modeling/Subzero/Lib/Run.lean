import Mathlib.Data.List.Basic

/-! Runs of a transition function. A run lists the steps taken, each with the
state before it, so that a result can put a condition on every one of them. -/
namespace Subzero
variable {σ ε : Type} {step : σ → ε → Option σ}

inductive Run (step : σ → ε → Option σ) (start : σ) : List (σ × ε) → σ → Prop where
  | start : Run step start [] start
  | next {steps : List (σ × ε)} {t u : σ} {e : ε} : Run step start steps t → step t e = some u →
      Run step start (steps ++ [(t, e)]) u

/-- Every step meets a condition on the state before it. -/
def Meets (guard : σ → ε → Prop) (steps : List (σ × ε)) : Prop :=
  ∀ x ∈ steps, guard x.1 x.2

/-- The states of a run: those before the steps, and the last one. -/
def states (steps : List (σ × ε)) (last : σ) : List σ := steps.map Prod.fst ++ [last]

theorem Meets.init {guard : σ → ε → Prop} {steps : List (σ × ε)} {x : σ × ε}
    (h : Meets guard (steps ++ [x])) : Meets guard steps :=
  fun y hy => h y (List.mem_append_left _ hy)

theorem Meets.last {guard : σ → ε → Prop} {steps : List (σ × ε)} {x : σ × ε}
    (h : Meets guard (steps ++ [x])) : guard x.1 x.2 :=
  h x (List.mem_append_right _ List.mem_cons_self)

theorem mem_states_next {steps : List (σ × ε)} {x : σ × ε} {last s : σ} :
    s ∈ states (steps ++ [x]) last ↔ s ∈ states steps x.1 ∨ s = last := by
  simp [states, or_assoc]

namespace Run
variable {start last : σ} {steps : List (σ × ε)}

/-- What holds at the start and is kept by every step holds in the last state. -/
theorem invariant (run : Run step start steps last) (guard : σ → ε → Prop)
    (meets : Meets guard steps) (I : σ → Prop) (init : I start)
    (keeps : ∀ u e v, I u → guard u e → step u e = some v → I v) : I last := by
  induction run with
  | start => exact init
  | next _ taken ih => exact keeps _ _ _ (ih meets.init) meets.last taken

/-- What every step keeps holds in every state, and a relation that every step
respects relates every state to the last one. -/
theorem relates (run : Run step start steps last) (guard : σ → ε → Prop)
    (meets : Meets guard steps) (I : σ → Prop) (R : σ → σ → Prop) (init : I start)
    (refl : ∀ u, R u u) (trans : ∀ u v w, R u v → R v w → R u w)
    (keeps : ∀ u e v, I u → guard u e → step u e = some v → I v ∧ R u v) :
    I last ∧ ∀ s ∈ states steps last, I s ∧ R s last := by
  induction run with
  | start =>
    refine ⟨init, fun s hs => ?_⟩
    obtain rfl : s = start := by simpa [states] using hs
    exact ⟨init, refl s⟩
  | @next steps t u e run taken ih =>
    obtain ⟨inside, related⟩ := ih meets.init
    obtain ⟨inside', step_rel⟩ := keeps t e u inside meets.last taken
    refine ⟨inside', fun s hs => ?_⟩
    rcases mem_states_next.mp hs with hs | rfl
    · exact ⟨(related s hs).1, trans s t u (related s hs).2 step_rel⟩
    · exact ⟨inside', refl s⟩

theorem append {middle : σ} {later : List (σ × ε)} (first : Run step start steps middle)
    (second : Run step middle later last) : Run step start (steps ++ later) last := by
  induction second with
  | start => simpa using first
  | next _ taken ih =>
    rw [← List.append_assoc]
    exact .next ih taken

/-- Every step of a run can be taken in the state before it. -/
theorem taken (run : Run step start steps last) : ∀ x ∈ steps, ∃ u, step x.1 x.2 = some u := by
  induction run with
  | start => simp
  | next _ taken ih =>
    intro x listed
    rcases List.mem_append.mp listed with before | here
    · exact ih x before
    · obtain rfl := List.mem_singleton.mp here
      exact ⟨_, taken⟩

/-- A property that one step keeps exactly under a condition holds in all states
of a run exactly if all its steps meet the condition. -/
theorem exact (run : Run step start steps last) (guard : σ → ε → Prop) (I P : σ → Prop)
    (init : I start ∧ P start)
    (sharp : ∀ u e v, I u → P u → step u e = some v → I v ∧ (P v ↔ guard u e)) :
    (∀ s ∈ states steps last, P s) ↔ Meets guard steps := by
  have both : ((∀ s ∈ states steps last, P s) ↔ Meets guard steps) ∧
      ((∀ s ∈ states steps last, P s) → I last) := by
    induction run with
    | start => simp [states, Meets, init.1, init.2]
    | @next steps t u e run taken ih =>
      have earlier : (∀ s ∈ states (steps ++ [(t, e)]) u, P s) → ∀ s ∈ states steps t, P s :=
        fun all s hs => all s (mem_states_next.mpr (.inl hs))
      have here : (∀ s ∈ states steps t, P s) → I u ∧ (P u ↔ guard t e) :=
        fun all => sharp t e u (ih.2 all) (all t (by simp [states])) taken
      refine ⟨⟨fun all x hx => ?_, fun meets s hs => ?_⟩, fun all => (here (earlier all)).1⟩
      · rcases List.mem_append.mp hx with hx | hx
        · exact ih.1.mp (earlier all) x hx
        · obtain rfl := List.mem_singleton.mp hx
          exact (here (earlier all)).2.mp (all u (mem_states_next.mpr (.inr rfl)))
      · have before := ih.1.mpr meets.init
        rcases mem_states_next.mp hs with hs | rfl
        · exact before s hs
        · exact (here before).2.mpr meets.last
  exact both.1

/-- Where one condition on a step says the same as another in every state that the other
leads to, a run meets the one exactly if it meets the other. -/
theorem meets_iff (run : Run step start steps last) (good guard : σ → ε → Prop) (I : σ → Prop)
    (init : I start) (keeps : ∀ u e v, I u → guard u e → step u e = some v → I v)
    (sharp : ∀ u e, I u → (good u e ↔ guard u e)) : Meets good steps ↔ Meets guard steps := by
  induction run with
  | start => simp [Meets]
  | @next steps t u e run _ ih =>
    have here : Meets guard steps → (good t e ↔ guard t e) := fun meets =>
      sharp t e (run.invariant guard meets I init keeps)
    have split : ∀ p : σ → ε → Prop, Meets p (steps ++ [(t, e)]) ↔ Meets p steps ∧ p t e := by
      intro p
      simp only [Meets, List.forall_mem_append, List.forall_mem_singleton]
    rw [split, split, ih]
    exact and_congr_right here

/-- A loop ends if all its rounds go down in a well-founded order. -/
theorem ends {e : ε} {below : σ → σ → Prop} (founded : WellFounded below) (I : σ → Prop)
    (init : I start) (down : ∀ u v, I u → step u e = some v → I v ∧ below v u) :
    ∃ steps last, Run step start steps last ∧ step last e = none := by
  have onward : ∀ u, I u → ∀ steps, Run step start steps u →
      ∃ steps last, Run step start steps last ∧ step last e = none := by
    intro u
    induction u using founded.induction with
    | h u ih =>
      intro inside steps run
      cases taken : step u e with
      | none => exact ⟨steps, u, run, taken⟩
      | some v =>
        obtain ⟨inside', lower⟩ := down u v inside taken
        exact ih v lower inside' _ (.next run taken)
  exact onward start init [] .start

/-- A loop goes on for ever if there is always another round. -/
theorem goes_on {e : ε} (I : σ → Prop) (init : I start)
    (again : ∀ u, I u → ∃ v, step u e = some v ∧ I v) (n : Nat) :
    ∃ steps last, Run step start steps last ∧ steps.length = n ∧ (∀ x ∈ steps, I x.1) ∧ I last := by
  induction n with
  | zero => exact ⟨[], start, .start, rfl, by simp, init⟩
  | succ n ih =>
    obtain ⟨steps, last, run, length, inside, here⟩ := ih
    obtain ⟨next, taken, there⟩ := again last here
    refine ⟨_, next, .next run taken, by simp [length], fun x listed => ?_, there⟩
    rcases List.mem_append.mp listed with before | now
    · exact inside x before
    · cases List.mem_singleton.mp now
      exact here

end Run

/-- Run a list of events; `none` if one of them cannot be taken. -/
def exec (step : σ → ε → Option σ) (s : σ) : List ε → Option (List (σ × ε) × σ)
  | [] => some ([], s)
  | e :: es =>
    match step s e with
    | none => none
    | some t => (exec step t es).map fun (steps, u) => ((s, e) :: steps, u)

theorem Run.cons {s t u : σ} {e : ε} {steps : List (σ × ε)} (taken : step s e = some t)
    (run : Run step t steps u) : Run step s ((s, e) :: steps) u := by
  induction run with
  | start =>
    have one : Run step s ([] ++ [(s, e)]) t := .next .start taken
    exact one
  | next _ last ih => exact Run.next ih last

theorem exec_run {s t : σ} {es : List ε} {steps : List (σ × ε)}
    (h : exec step s es = some (steps, t)) : Run step s steps t := by
  induction es generalizing s steps with
  | nil => cases h; exact .start
  | cons e es ih =>
    simp only [exec] at h
    split at h
    · cases h
    · rename_i u taken
      cases rest : exec step u es with
      | none => simp [rest] at h
      | some r =>
        simp only [rest, Option.map_some, Option.some.injEq, Prod.mk.injEq] at h
        obtain ⟨rfl, rfl⟩ := h
        exact .cons taken (ih rest)

/-- A property of a run that an evaluation of its events finds. -/
theorem exec_any {s : σ} {es : List ε} {p : List (σ × ε) × σ → Bool}
    (h : (exec step s es).any p = true) : ∃ steps t, Run step s steps t ∧ p (steps, t) = true := by
  obtain ⟨⟨steps, t⟩, taken, found⟩ := (Option.any_eq_true _ _).mp h
  exact ⟨steps, t, exec_run taken, found⟩

end Subzero
