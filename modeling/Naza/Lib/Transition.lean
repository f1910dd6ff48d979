import Mathlib

/-!
# Invariants of transitions

Rules for properties that single steps keep: along any number of steps, under a side condition
that later states pass back to earlier ones, and through a fold whose steps may throw.
-/

namespace Lib

variable {σ α ε : Type}

/-- Every step keeps the property. -/
def Preserves (R : σ → σ → Prop) (I : σ → Prop) : Prop :=
  ∀ ⦃s t⦄, R s t → I s → I t

theorem Preserves.star {R : σ → σ → Prop} {I : σ → Prop} (h : Preserves R I) :
    Preserves (Relation.ReflTransGen R) I := by
  intro s t hst hs
  induction hst with
  | refl => exact hs
  | tail _ hstep ih => exact h hstep ih

/-- Steps keep `I` where `J` holds, and keep `J` by themselves. -/
theorem Preserves.and {R : σ → σ → Prop} {I J : σ → Prop} (hJ : Preserves R J)
    (hI : ∀ ⦃s t⦄, R s t → J s → I s → I t) : Preserves R fun s ↦ J s ∧ I s :=
  fun _ _ hst hs ↦ ⟨hJ hst hs.1, hI hst hs.1 hs.2⟩

/-- A fold that went through keeps what its steps keep. -/
theorem foldlM_ok_preserves {f : σ → α → Except ε σ} {l : List α} {I : σ → Prop}
    (h : ∀ s x t, x ∈ l → f s x = .ok t → I s → I t) {s t : σ} (hok : l.foldlM f s = .ok t)
    (hs : I s) : I t := by
  induction l generalizing s with
  | nil =>
    rw [List.foldlM_nil] at hok
    exact Except.ok.inj hok ▸ hs
  | cons x xs ih =>
    rw [List.foldlM_cons] at hok
    cases hx : f s x with
    | error e =>
      rw [hx] at hok
      cases hok
    | ok u =>
      rw [hx] at hok
      exact ih (fun s y t hy ↦ h s y t (List.mem_cons_of_mem _ hy)) hok
        (h s x u List.mem_cons_self hx hs)

/-- A fold whose steps go through goes through. -/
theorem foldlM_ok_of {f : σ → α → Except ε σ} {l : List α} {I : σ → Prop}
    (h : ∀ s x, x ∈ l → I s → ∃ t, f s x = .ok t ∧ I t) {s : σ} (hs : I s) :
    ∃ t, l.foldlM f s = .ok t ∧ I t := by
  induction l generalizing s with
  | nil => exact ⟨s, rfl, hs⟩
  | cons x xs ih =>
    obtain ⟨u, hu, hIu⟩ := h s x List.mem_cons_self hs
    obtain ⟨t, ht, hIt⟩ := ih (fun s y hy ↦ h s y (List.mem_cons_of_mem _ hy)) hIu
    refine ⟨t, ?_, hIt⟩
    rw [List.foldlM_cons, hu]
    exact ht

end Lib
