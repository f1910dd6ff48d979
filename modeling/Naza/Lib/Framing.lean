import Mathlib.Data.List.Basic
import Mathlib.Tactic.Common

/-!
# Framing of a stream

A stream of requests, each a header of fixed size and a body whose length the header tells, or
which the header is refused for.
-/

namespace Lib.Framing

/-- The size of a header and what it tells: the length of the body, or why it is refused. -/
structure Format (β ε : Type) where
  headerSize : ℕ
  headerSize_pos : 0 < headerSize
  bodyLength : List β → Except ε ℕ

/-- A header and a body. -/
abbrev Request (β : Type) := List β × List β

variable {β ε : Type} (fmt : Format β ε)

/-- The requests that a stream starts with, and the refusal they end with, if any. -/
def framesFrom : ℕ → List β → List (Request β) × Option ε
  | fuel, s =>
    if s.length < fmt.headerSize then ([], none)
    else
      match fmt.bodyLength (s.take fmt.headerSize) with
      | .error reason => ([], some reason)
      | .ok length =>
        if s.length < fmt.headerSize + length then ([], none)
        else
          match fuel with
          | 0 => ([], none)
          | fuel + 1 =>
            let (requests, refusal) := framesFrom fuel (s.drop (fmt.headerSize + length))
            ((s.take fmt.headerSize, (s.drop fmt.headerSize).take length) :: requests, refusal)

/-- The requests of a stream; each is of one byte at least. -/
def frames (s : List β) : List (Request β) × Option ε := framesFrom fmt s.length s

/-- The bytes of some requests. -/
def wire (requests : List (Request β)) : List β := requests.flatMap fun r ↦ r.1 ++ r.2

/-- A request whose header tells the length of its body. -/
structure Valid (r : Request β) : Prop where
  header : r.1.length = fmt.headerSize
  body : fmt.bodyLength r.1 = .ok r.2.length

/-- The start of a request, or nothing. -/
def Incomplete (s : List β) : Prop :=
  s.length < fmt.headerSize ∨ ∃ length, fmt.bodyLength (s.take fmt.headerSize) = .ok length ∧
    s.length < fmt.headerSize + length

/-- The stream starts with a header that is refused. -/
def Refused (reason : ε) (s : List β) : Prop :=
  fmt.headerSize ≤ s.length ∧ fmt.bodyLength (s.take fmt.headerSize) = .error reason

variable {fmt}

@[simp]
theorem wire_nil : wire ([] : List (Request β)) = [] := rfl

@[simp]
theorem wire_cons (r : Request β) (requests : List (Request β)) :
    wire (r :: requests) = r.1 ++ (r.2 ++ wire requests) := by
  rw [wire, List.flatMap_cons, List.append_assoc]
  rfl

theorem wire_append (requests requests' : List (Request β)) :
    wire (requests ++ requests') = wire requests ++ wire requests' := List.flatMap_append

theorem framesFrom_valid {r : Request β} (h : Valid fmt r) (fuel : ℕ) (s : List β) :
    framesFrom fmt (fuel + 1) (r.1 ++ (r.2 ++ s)) =
      (r :: (framesFrom fmt fuel s).1, (framesFrom fmt fuel s).2) := by
  have htake : (r.1 ++ (r.2 ++ s)).take fmt.headerSize = r.1 := List.take_left' h.header
  have hdrop : (r.1 ++ (r.2 ++ s)).drop fmt.headerSize = r.2 ++ s := List.drop_left' h.header
  have hrest : (r.1 ++ (r.2 ++ s)).drop (fmt.headerSize + r.2.length) = s := by
    rw [← List.drop_drop, hdrop, List.drop_left]
  have hlength : (r.1 ++ (r.2 ++ s)).length = fmt.headerSize + (r.2.length + s.length) := by
    rw [List.length_append, List.length_append, h.header]
  rw [framesFrom, if_neg (by omega), htake, h.body]
  dsimp only
  rw [if_neg (by omega), hrest, hdrop, List.take_left]

/-- More fuel than bytes changes nothing. -/
theorem framesFrom_eq {fuel : ℕ} {s : List β} (h : s.length ≤ fuel) :
    framesFrom fmt fuel s = frames fmt s := by
  have hstep : ∀ {fuel fuel' : ℕ} {s : List β}, s.length ≤ fuel → s.length ≤ fuel' →
      framesFrom fmt fuel s = framesFrom fmt fuel' s := by
    intro fuel
    have hpos := fmt.headerSize_pos
    induction fuel with
    | zero =>
      intro fuel' s h _
      have hshort : s.length < fmt.headerSize := by omega
      unfold framesFrom
      rw [if_pos hshort, if_pos hshort]
    | succ fuel ih =>
      intro fuel' s h h'
      unfold framesFrom
      by_cases hshort : s.length < fmt.headerSize
      · rw [if_pos hshort, if_pos hshort]
      rw [if_neg hshort, if_neg hshort]
      cases fmt.bodyLength (s.take fmt.headerSize) with
      | error reason => rfl
      | ok length =>
        dsimp only
        by_cases hbody : s.length < fmt.headerSize + length
        · rw [if_pos hbody, if_pos hbody]
        rw [if_neg hbody, if_neg hbody]
        cases fuel' with
        | zero => omega
        | succ fuel' =>
          dsimp only
          have hrest : (s.drop (fmt.headerSize + length)).length ≤ fuel ∧
              (s.drop (fmt.headerSize + length)).length ≤ fuel' := by
            rw [List.length_drop]
            omega
          rw [ih hrest.1 hrest.2]
  exact hstep h (Nat.le_refl _)

/-- Complete requests in front of a stream are its first frames. -/
theorem frames_wire_append {requests : List (Request β)} (h : ∀ r ∈ requests, Valid fmt r)
    (s : List β) :
    frames fmt (wire requests ++ s) = (requests ++ (frames fmt s).1, (frames fmt s).2) := by
  induction requests with
  | nil => rfl
  | cons r requests ih =>
    have hvalid := h r List.mem_cons_self
    have hpos := fmt.headerSize_pos
    have hih := ih fun r hmem ↦ h r (List.mem_cons_of_mem _ hmem)
    have hlength : (r.1 ++ (r.2 ++ (wire requests ++ s))).length =
        fmt.headerSize - 1 + r.2.length + (wire requests ++ s).length + 1 := by
      rw [List.length_append, List.length_append, hvalid.header]
      omega
    rw [wire_cons, List.append_assoc, List.append_assoc, frames, hlength, framesFrom_valid hvalid,
      framesFrom_eq (by omega), hih, List.cons_append]

theorem Incomplete.frames_eq {s : List β} (h : Incomplete fmt s) : frames fmt s = ([], none) := by
  unfold frames framesFrom
  by_cases hshort : s.length < fmt.headerSize
  · rw [if_pos hshort]
  obtain ⟨length, hbody, hlt⟩ := h.resolve_left hshort
  rw [if_neg hshort, hbody]
  exact if_pos hlt

theorem Refused.frames_eq {s : List β} {reason : ε} (h : Refused fmt reason s) :
    frames fmt s = ([], some reason) := by
  unfold frames framesFrom
  rw [if_neg (Nat.not_lt.2 h.1), h.2]

theorem Refused.append {s : List β} {reason : ε} (h : Refused fmt reason s) (s' : List β) :
    Refused fmt reason (s ++ s') := by
  refine ⟨?_, ?_⟩
  · rw [List.length_append]
    exact Nat.le_trans h.1 (Nat.le_add_right _ _)
  · rw [List.take_append_of_le_length h.1]
    exact h.2

end Lib.Framing
