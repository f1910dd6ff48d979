import Mathlib

/-!
# How a computation that may throw ends

`Ends Q bad x`: the computation `x` returns a value with `Q`, or throws an error that is not `bad`.
The rules follow the structure of a `do` block, so that one walk through a program shows both what
it keeps and which errors it cannot raise.
-/

namespace Lib

variable {ε α β σ : Type}

/-- A returned value meets `Q`, and an error thrown is not `bad`. -/
def Ends (Q : α → Prop) (bad : ε → Prop) (x : Except ε α) : Prop :=
  match x with
  | .ok a => Q a
  | .error e => ¬ bad e

namespace Ends

variable {Q Q' : α → Prop} {R : β → Prop} {bad : ε → Prop}

@[simp]
theorem ok_iff {a : α} : Ends Q bad (.ok a) ↔ Q a := Iff.rfl

@[simp]
theorem pure_iff {a : α} : Ends Q bad (pure a) ↔ Q a := Iff.rfl

@[simp]
theorem error_iff {e : ε} : Ends Q bad (.error e) ↔ ¬ bad e := Iff.rfl

theorem mono {x : Except ε α} (h : Ends Q bad x) (himp : ∀ a, Q a → Q' a) : Ends Q' bad x := by
  cases x with
  | ok a => exact himp a h
  | error e => exact h

theorem bind {x : Except ε α} {f : α → Except ε β} (hx : Ends Q bad x)
    (hf : ∀ a, Q a → Ends R bad (f a)) : Ends R bad (x >>= f) := by
  cases x with
  | ok a => exact hf a hx
  | error e => exact hx

/-- What is returned meets the postcondition. -/
theorem of_ok {x : Except ε α} (h : Ends Q bad x) {a : α} (hok : x = .ok a) : Q a := by
  rw [hok] at h
  exact h

/-- A bad error is not thrown. -/
theorem ne_error {x : Except ε α} (h : Ends Q bad x) {e : ε} (he : bad e) : x ≠ .error e := by
  rintro rfl
  exact h he

theorem iff_forall {x : Except ε α} :
    Ends Q bad x ↔ (∀ a, x = .ok a → Q a) ∧ ∀ e, x = .error e → ¬ bad e := by
  cases x with
  | ok a => simp
  | error e => simp

theorem and_of_ok {x : Except ε α} (h : Ends Q bad x) (h' : ∀ a, x = .ok a → Q' a) :
    Ends (fun a ↦ Q a ∧ Q' a) bad x := by
  cases x with
  | ok a => exact ⟨h, h' a rfl⟩
  | error e => exact h

/-- A fold keeps what its steps keep. -/
theorem foldlM {f : σ → α → Except ε σ} {I : σ → Prop} {l : List α}
    (h : ∀ s, I s → ∀ x ∈ l, Ends I bad (f s x)) {s : σ} (hs : I s) :
    Ends I bad (l.foldlM f s) := by
  induction l generalizing s with
  | nil => exact hs
  | cons x xs ih =>
    rw [List.foldlM_cons]
    exact (h s hs x List.mem_cons_self).bind fun t ht ↦
      ih (fun s hs y hy ↦ h s hs y (List.mem_cons_of_mem _ hy)) ht

/-- A fold whose invariant speaks about the elements still to come. -/
theorem foldlM_rest {f : σ → α → Except ε σ} {I : List α → σ → Prop}
    (h : ∀ s x rest, I (x :: rest) s → Ends (I rest) bad (f s x)) :
    ∀ {l : List α} {s : σ}, I l s → Ends (I []) bad (l.foldlM f s) := by
  intro l
  induction l with
  | nil => exact fun hs ↦ hs
  | cons x xs ih =>
    intro s hs
    rw [List.foldlM_cons]
    exact (h s x xs hs).bind fun t ht ↦ ih ht

/-- The results of a list of computations. -/
theorem mapM {f : α → Except ε β} {R : α → β → Prop} {l : List α}
    (h : ∀ x ∈ l, Ends (R x) bad (f x)) : Ends (List.Forall₂ R l) bad (l.mapM f) := by
  induction l with
  | nil =>
    rw [List.mapM_nil]
    exact .nil
  | cons x xs ih =>
    rw [List.mapM_cons]
    refine (h x List.mem_cons_self).bind fun y hy ↦ ?_
    refine (ih fun x hx ↦ h x (List.mem_cons_of_mem _ hx)).bind fun ys hys ↦ ?_
    exact List.Forall₂.cons hy hys

end Ends

end Lib
