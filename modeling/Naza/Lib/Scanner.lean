import Mathlib.Data.List.Basic
import Mathlib.Tactic.Common

/-!
# Messages that a scanner ends

A scanner reads the head of a message element by element until it stops, and then tells how long
the body behind the head is, or refuses it.
-/

namespace Lib

/-- The states of a scanner, and the length of the body in one that it stops in. -/
structure Scanner (σ β : Type) where
  start : σ
  step : σ → β → σ
  stops : σ → Bool
  body : σ → Option ℕ
  goes_start : stops start = false

namespace Scanner

variable {σ β : Type} (sc : Scanner σ β)

/-- The state that a scanner comes to, and what it has not read. -/
def scan : σ → List β → σ × List β
  | s, [] => (s, [])
  | s, x :: xs => if sc.stops s then (s, x :: xs) else scan (sc.step s x) xs

/-- The state after a head and the body behind it. -/
abbrev Message (σ β : Type) := σ × List β

/-- The length of the body, where there is a head. -/
def expects (s : σ) : Option ℕ := if sc.stops s then sc.body s else none

def messagesFrom : ℕ → List β → List (Message σ β)
  | 0, _ => []
  | fuel + 1, xs =>
    match sc.expects (sc.scan sc.start xs).1 with
    | none => []
    | some length =>
      if (sc.scan sc.start xs).2.length < length then []
      else
        ((sc.scan sc.start xs).1, (sc.scan sc.start xs).2.take length) ::
          messagesFrom fuel ((sc.scan sc.start xs).2.drop length)

/-- The messages that a stream starts with; each has one element at least. -/
def messages (xs : List β) : List (Message σ β) := sc.messagesFrom xs.length xs

/-- A message in full. -/
structure Frame (xs : List β) (m : Message σ β) : Prop where
  stops : sc.stops m.1 = true
  body : sc.body m.1 = some m.2.length
  eq : ∃ head, xs = head ++ m.2 ∧ sc.scan sc.start head = (m.1, [])

/-- Some messages in full, one behind the other. -/
inductive Wire : List β → List (Message σ β) → Prop
  | nil : Wire [] []
  | snoc {xs ys : List β} {ms : List (Message σ β)} {m : Message σ β} (h : Wire xs ms)
    (hframe : sc.Frame ys m) : Wire (xs ++ ys) (ms ++ [m])

variable {sc} {s : σ} {xs ys : List β} {m : Message σ β} {ms : List (Message σ β)}

/-! ## Scanning -/

@[simp]
theorem scan_nil (sc : Scanner σ β) (s : σ) : sc.scan s [] = (s, []) := rfl

theorem scan_cons (hgoes : sc.stops s = false) (x : β) (xs : List β) :
    sc.scan s (x :: xs) = sc.scan (sc.step s x) xs := by
  rw [scan, hgoes]
  rfl

theorem scan_stops (hstops : sc.stops s = true) (xs : List β) : sc.scan s xs = (s, xs) := by
  cases xs with
  | nil => rfl
  | cons x xs => rw [scan, if_pos hstops]

/-- A scanner goes on from where it was. -/
theorem scan_append (sc : Scanner σ β) (s : σ) (xs ys : List β) :
    sc.scan s (xs ++ ys) = sc.scan (sc.scan s xs).1 ((sc.scan s xs).2 ++ ys) := by
  induction xs generalizing s with
  | nil => rfl
  | cons x xs ih =>
    cases hstops : sc.stops s with
    | true => rw [scan_stops hstops (x :: xs)]
    | false => rw [List.cons_append, scan_cons hstops, scan_cons hstops, ih]

/-- What was read leads to the same state. -/
theorem exists_read (sc : Scanner σ β) (s : σ) (xs : List β) :
    ∃ read, xs = read ++ (sc.scan s xs).2 ∧ sc.scan s read = ((sc.scan s xs).1, []) := by
  induction xs generalizing s with
  | nil => exact ⟨[], rfl, rfl⟩
  | cons x xs ih =>
    cases hstops : sc.stops s with
    | true =>
      rw [scan_stops hstops]
      exact ⟨[], rfl, rfl⟩
    | false =>
      obtain ⟨read, hread, hscan⟩ := ih (sc.step s x)
      refine ⟨x :: read, ?_, ?_⟩
      · rw [scan_cons hstops, List.cons_append, ← hread]
      · rw [scan_cons hstops, scan_cons hstops, hscan]

/-- What was read, from what was not. -/
theorem scan_read {s' : σ} (h : sc.scan s (xs ++ ys) = (s', ys)) : sc.scan s xs = (s', []) := by
  obtain ⟨read, hread, hscan⟩ := sc.exists_read s (xs ++ ys)
  rw [h] at hread hscan
  rw [List.append_cancel_right hread, hscan]

theorem length_scan_snd_lt (hstops : sc.stops (sc.scan sc.start xs).1 = true) :
    (sc.scan sc.start xs).2.length < xs.length := by
  obtain ⟨read, hread, hscan⟩ := sc.exists_read sc.start xs
  have hne : read ≠ [] := by
    rintro rfl
    rw [scan_nil, Prod.mk.injEq] at hscan
    rw [← hscan.1, sc.goes_start] at hstops
    cases hstops
  have hlength := congrArg List.length hread
  rw [List.length_append] at hlength
  have hpos := List.length_pos_iff.2 hne
  omega

/-! ## Passages -/

/-- Reading leads from a state to another one, whatever follows. -/
def Passes (sc : Scanner σ β) (s : σ) (xs : List β) (s' : σ) : Prop :=
  ∀ ys, sc.scan s (xs ++ ys) = sc.scan s' ys

variable {s' s'' : σ}

theorem Passes.refl (sc : Scanner σ β) (s : σ) : sc.Passes s [] s := fun _ ↦ rfl

theorem Passes.append (h : sc.Passes s xs s') (h' : sc.Passes s' ys s'') :
    sc.Passes s (xs ++ ys) s'' := fun zs ↦ by
  rw [List.append_assoc, h, h']

theorem Passes.cons {x : β} (hgoes : sc.stops s = false) (h : sc.Passes (sc.step s x) xs s') :
    sc.Passes s (x :: xs) s' := fun ys ↦ by
  rw [List.cons_append, scan_cons hgoes, h]

theorem Passes.single {x : β} (hgoes : sc.stops s = false) (h : sc.step s x = s') :
    sc.Passes s [x] s' :=
  .cons hgoes (h ▸ .refl sc _)

/-- A passage through states that tell what was read in them. -/
theorem Passes.loop {F : List β → σ} {P : β → Prop} (hgoes : ∀ l, sc.stops (F l) = false)
    (hstep : ∀ l x, P x → sc.step (F l) x = F (l ++ [x])) (l : List β) {xs : List β}
    (hxs : ∀ x ∈ xs, P x) : sc.Passes (F l) xs (F (l ++ xs)) := by
  induction xs generalizing l with
  | nil =>
    rw [List.append_nil]
    exact .refl sc _
  | cons x xs ih =>
    rw [List.forall_mem_cons] at hxs
    have hrest := ih (l ++ [x]) hxs.2
    rw [← hstep l x hxs.1, List.append_assoc] at hrest
    exact .cons (hgoes l) hrest

theorem Passes.scan_eq (h : sc.Passes s xs s') (hstops : sc.stops s' = true) (ys : List β) :
    sc.scan s (xs ++ ys) = (s', ys) := by
  rw [h, scan_stops hstops]

/-! ## Messages -/

theorem expects_eq_some {length : ℕ} :
    sc.expects s = some length ↔ sc.stops s = true ∧ sc.body s = some length := by
  rw [expects]
  split_ifs with hstops
  · exact ⟨fun h ↦ ⟨hstops, h⟩, And.right⟩
  · exact ⟨fun h ↦ (by cases h), fun h ↦ absurd h.1 hstops⟩

/-- More fuel than elements changes nothing. -/
theorem messagesFrom_eq {fuel : ℕ} (h : xs.length ≤ fuel) :
    sc.messagesFrom fuel xs = sc.messages xs := by
  have hstep : ∀ {fuel fuel' : ℕ} {xs : List β}, xs.length ≤ fuel → xs.length ≤ fuel' →
      sc.messagesFrom fuel xs = sc.messagesFrom fuel' xs := by
    have hnil : ∀ fuel, sc.messagesFrom fuel [] = [] := by
      intro fuel
      cases fuel with
      | zero => rfl
      | succ fuel =>
        have hnone : sc.expects sc.start = none := by
          rw [expects, sc.goes_start]
          rfl
        rw [messagesFrom, scan_nil, hnone]
    intro fuel
    induction fuel with
    | zero =>
      intro fuel' xs h _
      obtain rfl := List.length_eq_zero_iff.1 (Nat.le_zero.1 h)
      rw [hnil, hnil]
    | succ fuel ih =>
      intro fuel' xs h h'
      cases fuel' with
      | zero =>
        obtain rfl := List.length_eq_zero_iff.1 (Nat.le_zero.1 h')
        rw [hnil, hnil]
      | succ fuel' =>
        rw [messagesFrom, messagesFrom]
        cases hexpects : sc.expects (sc.scan sc.start xs).1 with
        | none => rfl
        | some length =>
          have hlt := length_scan_snd_lt (expects_eq_some.1 hexpects).1
          dsimp only
          have hrest : ((sc.scan sc.start xs).2.drop length).length ≤ fuel ∧
              ((sc.scan sc.start xs).2.drop length).length ≤ fuel' := by
            rw [List.length_drop]
            omega
          rw [ih hrest.1 hrest.2]
  exact hstep h (Nat.le_refl _)

/-- A message in full is the first of its stream. -/
theorem Frame.messages_append (h : sc.Frame xs m) (ys : List β) :
    sc.messages (xs ++ ys) = m :: sc.messages ys := by
  obtain ⟨head, rfl, hscan⟩ := h.eq
  have hall : sc.scan sc.start (head ++ m.2 ++ ys) = (m.1, m.2 ++ ys) := by
    rw [List.append_assoc, scan_append, hscan, List.nil_append, scan_stops h.stops]
  have hexpects : sc.expects m.1 = some m.2.length := expects_eq_some.2 ⟨h.stops, h.body⟩
  have hne : head ≠ [] := by
    rintro rfl
    rw [scan_nil, Prod.mk.injEq] at hscan
    have hstops := h.stops
    rw [← hscan.1, sc.goes_start] at hstops
    cases hstops
  have hpos := List.length_pos_iff.2 hne
  have hlength : (head ++ m.2 ++ ys).length =
      (head.length - 1 + m.2.length + ys.length) + 1 := by
    rw [List.length_append, List.length_append]
    omega
  rw [messages, hlength, messagesFrom, hall, hexpects]
  dsimp only
  rw [if_neg (by rw [List.length_append]; omega), List.take_left, List.drop_left,
    messagesFrom_eq (by omega)]

/-- Messages in full are the first of their stream. -/
theorem Wire.messages_append (h : sc.Wire xs ms) (ys : List β) :
    sc.messages (xs ++ ys) = ms ++ sc.messages ys := by
  induction h generalizing ys with
  | nil => rfl
  | snoc _ hframe ih =>
    rw [List.append_assoc, ih, hframe.messages_append, List.append_assoc]
    rfl

end Scanner

end Lib
