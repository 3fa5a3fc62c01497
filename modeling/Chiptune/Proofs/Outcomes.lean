import Mathlib.Data.List.Forall2

namespace Chiptune

/-!
# Outcomes of steps that can fail

What is known of the parts of a computation when the whole of it succeeds or fails.
-/

variable {ε α β : Type}

/-- Steps in a row give a result only when the first one does. -/
theorem ok_of_bind {x : Except ε α} {f : α → Except ε β} {b : β} (h : x >>= f = .ok b) :
    ∃ a, x = .ok a ∧ f a = .ok b := by
  cases x with
  | error e => cases h
  | ok a => exact ⟨a, rfl, h⟩

theorem eq_ok_of_toOption {result : Except ε α} {value : α} (h : result.toOption = some value) :
    result = .ok value := by
  cases result with
  | error e => cases h
  | ok found =>
    cases h
    rfl

/-- Other words for the fault do not touch the result. -/
@[simp] theorem mapError_eq_ok {ε' : Type} {f : ε → ε'} {x : Except ε α} {a : α} :
    x.mapError f = .ok a ↔ x = .ok a := by
  cases x <;> simp [Except.mapError]

/-- Two computations succeed together when each does after the other. -/
theorem isOk_congr {x : Except ε α} {y : Except ε β} (h : ∀ a, x = .ok a → ∃ b, y = .ok b)
    (h' : ∀ b, y = .ok b → ∃ a, x = .ok a) : x.isOk = y.isOk := by
  cases x with
  | error e =>
    cases y with
    | error e' => rfl
    | ok b =>
      obtain ⟨a, ha⟩ := h' b rfl
      cases ha
  | ok a =>
    obtain ⟨b, rfl⟩ := h a rfl
    rfl

/-- A condition that holds after every success adds nothing to it. -/
theorem and_isOk {c : Bool} {x : Except ε α} (h : ∀ a, x = .ok a → c = true) :
    (c && x.isOk) = x.isOk := by
  cases x with
  | error e => exact Bool.and_false c
  | ok a =>
    rw [h a rfl]
    rfl

theorem isOk_iff {result : Except ε α} : result.isOk = true ↔ ∃ a, result = .ok a := by
  cases result with
  | error e =>
    refine ⟨fun h => absurd h Bool.noConfusion, ?_⟩
    rintro ⟨a, h⟩
    cases h
  | ok a => exact ⟨fun _ => ⟨a, rfl⟩, fun _ => rfl⟩

/-- Steps for the members of a list succeed together when each does, and give the list of the
    results. -/
theorem mapM_eq_some {f : α → Option β} {l : List α} {l' : List β} :
    l.mapM f = some l' ↔ List.Forall₂ (fun a b => f a = some b) l l' := by
  induction l generalizing l' with
  | nil =>
    rw [List.mapM_nil, List.forall₂_nil_left_iff]
    exact Option.some_inj.trans eq_comm
  | cons a rest ih =>
    rw [List.mapM_cons, List.forall₂_cons_left_iff]
    constructor
    · intro h
      obtain ⟨b, hb, h⟩ := Option.bind_eq_some_iff.1 h
      obtain ⟨others, hothers, h⟩ := Option.bind_eq_some_iff.1 h
      exact ⟨b, others, hb, ih.1 hothers, (Option.some.inj h).symm⟩
    · rintro ⟨b, others, hb, hothers, rfl⟩
      rw [hb, ih.2 hothers]
      rfl

end Chiptune
