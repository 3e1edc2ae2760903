import Mathlib.Data.List.Basic

/-! Stateful calls that can fail. An error returns the state as the mutations
before it left it, so a caller that goes on after an error goes on from there.
A panic has no state to go on from. -/
namespace Subzero

/-- A call returns a value, returns an error, or panics. -/
inductive Outcome (ε σ α : Type) where
  | ok (value : α) (state : σ)
  | err (error : ε) (state : σ)
  | panic

namespace Outcome
variable {ε ε' σ τ α β : Type}

/-- Sequencing: an error or a panic ends the computation. -/
def bind (x : Outcome ε σ α) (f : α → σ → Outcome ε σ β) : Outcome ε σ β :=
  match x with
  | ok a s => f a s
  | err e s => err e s
  | panic => panic

/-- Run a call on a part of the state inside the whole. -/
def lift (k : ε → ε') (put : σ → τ) : Outcome ε σ α → Outcome ε' τ α
  | ok a s => ok a (put s)
  | err e s => err (k e) (put s)
  | panic => panic

/-- The state left behind, if there is one. -/
def state? : Outcome ε σ α → Option σ
  | ok _ s => some s
  | err _ s => some s
  | panic => none

/-- `Result::unwrap`: an error panics. -/
def unwrap : Outcome ε σ α → Option (α × σ)
  | ok a s => some (a, s)
  | err _ _ => none
  | panic => none

/-- The error, with the state that it leaves behind. -/
def error? : Outcome ε σ α → Option (ε × σ)
  | err e s => some (e, s)
  | ok _ _ => none
  | panic => none

/-- A loop with early exit that appends what its rounds return. -/
def gather (body : β → σ → Outcome ε σ (List α)) : List β → σ → Outcome ε σ (List α)
  | [], s => ok [] s
  | b :: bs, s =>
    (body b s).bind fun xs s => (gather body bs s).bind fun ys s => ok (xs ++ ys) s

/-- A loop with early exit. -/
def forEach (body : β → σ → Outcome ε σ Unit) : List β → σ → Outcome ε σ Unit
  | [], s => ok () s
  | b :: bs, s => (body b s).bind fun _ s => forEach body bs s

@[simp] theorem bind_ok (a : α) (s : σ) (f : α → σ → Outcome ε σ β) :
    (ok a s : Outcome ε σ α).bind f = f a s := rfl

@[simp] theorem bind_err (e : ε) (s : σ) (f : α → σ → Outcome ε σ β) :
    (err e s : Outcome ε σ α).bind f = err e s := rfl

@[simp] theorem bind_panic (f : α → σ → Outcome ε σ β) :
    (panic : Outcome ε σ α).bind f = panic := rfl

@[simp] theorem state?_ok (a : α) (s : σ) : (ok a s : Outcome ε σ α).state? = some s := rfl
@[simp] theorem state?_err (e : ε) (s : σ) : (err e s : Outcome ε σ α).state? = some s := rfl
@[simp] theorem state?_panic : (panic : Outcome ε σ α).state? = none := rfl

theorem state?_eq_none {x : Outcome ε σ α} : x.state? = none ↔ x = panic := by
  cases x <;> simp

theorem error?_eq_some {x : Outcome ε σ α} {e : ε} {s : σ} :
    x.error? = some (e, s) ↔ x = err e s := by
  cases x <;> simp [error?]

theorem unwrap_eq_some {x : Outcome ε σ α} {a : α} {s : σ} :
    x.unwrap = some (a, s) ↔ x = ok a s := by
  cases x <;> simp [unwrap]

theorem bind_eq_ok {x : Outcome ε σ α} {f : α → σ → Outcome ε σ β} {b : β} {s' : σ} :
    x.bind f = ok b s' ↔ ∃ a s, x = ok a s ∧ f a s = ok b s' := by
  cases x <;> simp [bind]

theorem state?_lift (k : ε → ε') (put : σ → τ) (x : Outcome ε σ α) :
    (x.lift k put).state? = x.state?.map put := by
  cases x <;> rfl

theorem lift_eq_ok {k : ε → ε'} {put : σ → τ} {x : Outcome ε σ α} {a : α} {t : τ} :
    x.lift k put = ok a t ↔ ∃ s, x = ok a s ∧ t = put s := by
  cases x with
  | ok b s =>
    constructor
    · intro h; cases h; exact ⟨s, rfl, rfl⟩
    · rintro ⟨_, h, rfl⟩; cases h; rfl
  | err e s => simp [lift]
  | panic => simp [lift]

/-- The state left behind by a sequence is left behind by its first part that
does not return, or by the rest after the first part returned. -/
theorem state?_bind {x : Outcome ε σ α} {f : α → σ → Outcome ε σ β} {t : σ}
    (h : (x.bind f).state? = some t) :
    x.state? = some t ∨ ∃ a s, x = ok a s ∧ (f a s).state? = some t := by
  cases x with
  | ok a s => exact Or.inr ⟨a, s, rfl, h⟩
  | err e s => exact Or.inl h
  | panic => exact Or.inl h

@[simp] theorem state?_bind_ok (x : Outcome ε σ α) (b : β) :
    (x.bind fun _ s => ok b s).state? = x.state? := by
  cases x <;> rfl

/-- A relation that every round respects is respected by the loop, whether it
runs to its end or stops early. -/
theorem forEach_rel (R : σ → σ → Prop) (refl : ∀ s, R s s)
    (trans : ∀ s t u, R s t → R t u → R s u) (body : β → σ → Outcome ε σ Unit) (bs : List β)
    (round : ∀ b ∈ bs, ∀ s t, (body b s).state? = some t → R s t) (s t : σ)
    (h : (forEach body bs s).state? = some t) : R s t := by
  induction bs generalizing s with
  | nil => cases h; exact refl _
  | cons b bs ih =>
    have first := round b List.mem_cons_self
    rcases state?_bind h with h | ⟨_, u, hu, h⟩
    · exact first s t h
    · have tail := ih (fun c hc => round c (List.mem_cons_of_mem b hc)) u h
      exact trans s u t (first s u (by simp [hu])) tail

end Outcome

/-- A loop over calls which all return. -/
theorem mapM_some {α β : Type} {f : α → Option β} {l : List α} (all : ∀ a ∈ l, ∃ b, f a = some b) :
    ∃ bs, l.mapM f = some bs ∧ l.map f = bs.map some := by
  induction l with
  | nil => exact ⟨[], rfl, rfl⟩
  | cons a l ih =>
    obtain ⟨b, here⟩ := all a List.mem_cons_self
    obtain ⟨bs, rest, same⟩ := ih fun a' later => all a' (List.mem_cons_of_mem a later)
    exact ⟨b :: bs, by simp [here, rest], by simp [here, same]⟩

theorem foldlM_cons_some {σ β : Type} {body : σ → β → Option σ} {b : β} {bs : List β} {s t : σ} :
    (b :: bs).foldlM body s = some t ↔ ∃ u, body s b = some u ∧ bs.foldlM body u = some t := by
  rw [List.foldlM_cons, Option.bind_eq_bind, Option.bind_eq_some_iff]

theorem foldlM_concat {σ β : Type} {body : σ → β → Option σ} {b : β} {bs : List β} {s t u : σ}
    (rounds : bs.foldlM body s = some t) (round : body t b = some u) :
    (bs ++ [b]).foldlM body s = some u := by
  rw [List.foldlM_append, rounds]
  exact foldlM_cons_some.mpr ⟨u, round, rfl⟩

/-- What every round of a loop keeps holds at its end. -/
theorem foldlM_invariant {σ β : Type} {body : σ → β → Option σ} {bs : List β} {s t : σ}
    (I : σ → Prop) (init : I s) (round : ∀ b ∈ bs, ∀ u v, I u → body u b = some v → I v)
    (h : bs.foldlM body s = some t) : I t := by
  induction bs generalizing s with
  | nil => cases h; exact init
  | cons b bs ih =>
    obtain ⟨u, first, rest⟩ := foldlM_cons_some.mp h
    have next := round b List.mem_cons_self s u init first
    exact ih next (fun c hc => round c (List.mem_cons_of_mem b hc)) rest

end Subzero
