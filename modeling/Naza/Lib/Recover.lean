import Naza.Lib.Stream

/-!
# Readers that give back what was written, exactly when it fits

A reader is a function on the bytes left.  `Recovers` says of one piece of text when the reader
gives back a value of which `same` holds, and that otherwise it fails or gives another value;
`Consumes` bounds from below what a reader takes from its input.
-/

namespace Lib

variable {α β τ : Type}

/-- Read one element after the other. -/
def repeatRead (read : Bytes → Option (α × Bytes)) : ℕ → Bytes → Option (List α × Bytes)
  | 0, s => some ([], s)
  | count + 1, s => do
    let (a, s) ← read s
    let (as, s) ← repeatRead read count s
    some (a :: as, s)

/-- Where the reader succeeds it has taken `k` bytes or more. -/
def Consumes (k : ℕ) (read : Bytes → Option (α × Bytes)) : Prop :=
  ∀ s a s', read s = some (a, s') → s'.length + k ≤ s.length

theorem Consumes.mono {k l : ℕ} {read : Bytes → Option (α × Bytes)} (h : Consumes k read)
    (hle : l ≤ k) : Consumes l read := by
  intro s a s' hread
  have hlength := h s a s' hread
  omega

theorem Consumes.none (k : ℕ) : Consumes k fun _ ↦ (none : Option (α × Bytes)) := by
  intro s a s' hread
  cases hread

theorem Consumes.map {k : ℕ} {read : Bytes → Option (α × Bytes)} (h : Consumes k read)
    (f : α → β) : Consumes k fun s ↦ (read s).map fun r ↦ (f r.1, r.2) := by
  intro s b s' hread
  obtain ⟨⟨a, s''⟩, hsome, heq⟩ := Option.map_eq_some_iff.mp hread
  cases heq
  exact h s a s'' hsome

/-- A loop that succeeds has read as many elements as it was told to. -/
theorem length_of_repeatRead {read : Bytes → Option (α × Bytes)} {count : ℕ} {s s' : Bytes}
    {as : List α} (hread : repeatRead read count s = some (as, s')) : as.length = count := by
  induction count generalizing s as with
  | zero =>
    cases hread
    rfl
  | succ count ih =>
    obtain ⟨⟨a, s₁⟩, -, hmore⟩ := Option.bind_eq_some_iff.mp hread
    obtain ⟨⟨as', s₂⟩, hrest, heq⟩ := Option.bind_eq_some_iff.mp hmore
    cases heq
    rw [List.length_cons, ih hrest]

theorem Consumes.repeatRead {k : ℕ} {read : Bytes → Option (α × Bytes)} (h : Consumes k read)
    (count : ℕ) {s s' : Bytes} {as : List α} (hread : repeatRead read count s = some (as, s')) :
    s'.length + k * count ≤ s.length := by
  induction count generalizing s as with
  | zero =>
    cases hread
    rw [Nat.mul_zero, Nat.add_zero]
  | succ count ih =>
    obtain ⟨⟨a, s₁⟩, hfirst, hmore⟩ := Option.bind_eq_some_iff.mp hread
    obtain ⟨⟨as', s₂⟩, hrest, heq⟩ := Option.bind_eq_some_iff.mp hmore
    cases heq
    have hsize := ih hrest
    have hstep := h s a s₁ hfirst
    rw [Nat.mul_succ]
    omega

/-- On the text `p`, with anything behind it that keeps the whole below `limit`, the reader gives
a value of which `same` holds and stops after `p` if `fits`; otherwise it gives no such value. -/
def Recovers (limit : ℕ) (read : Bytes → Option (α × Bytes)) (same : α → Prop) (fits : Prop)
    (p : Bytes) : Prop :=
  ∀ rest, (p ++ rest).length < limit →
    (fits → ∃ a, read (p ++ rest) = some (a, rest) ∧ same a) ∧
    (¬fits → ∀ a rest', read (p ++ rest) = some (a, rest') → ¬same a)

namespace Recovers

variable {limit : ℕ} {read : Bytes → Option (α × Bytes)} {same : α → Prop} {fits : Prop} {p : Bytes}

theorem of_fits (h : ∀ rest, ∃ a, read (p ++ rest) = some (a, rest) ∧ same a) (hfits : fits) :
    Recovers limit read same fits p := fun rest _ ↦ ⟨fun _ ↦ h rest, fun hnot ↦ absurd hfits hnot⟩

/-- A reader that goes over to another one. -/
theorem of_eq {read' : Bytes → Option (α × Bytes)} {q : Bytes} (h : Recovers limit read same fits p)
    (hread : ∀ rest, read' (q ++ rest) = read (p ++ rest)) (hlength : p.length ≤ q.length) :
    Recovers limit read' same fits q := by
  intro rest hlimit
  rw [hread]
  refine h rest ?_
  rw [List.length_append] at hlimit ⊢
  omega

theorem map {same' : β → Prop} (h : Recovers limit read same fits p) (f : α → β)
    (hsame : ∀ a, same' (f a) ↔ same a) :
    Recovers limit (fun s ↦ (read s).map fun r ↦ (f r.1, r.2)) same' fits p := by
  intro rest hlimit
  obtain ⟨hyes, hno⟩ := h rest hlimit
  refine ⟨fun hfits ↦ ?_, fun hnot b rest' hread ↦ ?_⟩
  · obtain ⟨a, hread, ha⟩ := hyes hfits
    exact ⟨f a, by simp only [hread, Option.map_some], (hsame a).mpr ha⟩
  · obtain ⟨⟨a, s⟩, hsome, heq⟩ := Option.map_eq_some_iff.mp hread
    cases heq
    exact fun hb ↦ hno hnot a s hsome ((hsame a).mp hb)

end Recovers

/-- The first element that is not what it should be, and that was read where it was written. -/
def FirstMismatch (read : Bytes → Option (α × Bytes)) (text : τ → Bytes) (same : α → τ → Prop)
    (as : List α) (items : List τ) : Prop :=
  ∃ before item after as₁ a as₂, items = before ++ item :: after ∧ as = as₁ ++ a :: as₂ ∧
    List.Forall₂ same as₁ before ∧ ¬same a item ∧ ∃ s s', read (text item ++ s) = some (a, s')

theorem FirstMismatch.cons {read : Bytes → Option (α × Bytes)} {text : τ → Bytes}
    {same : α → τ → Prop} {as : List α} {items : List τ} {a : α} {item : τ}
    (h : FirstMismatch read text same as items) (hsame : same a item) :
    FirstMismatch read text same (a :: as) (item :: items) := by
  obtain ⟨before, wrong, after, as₁, b, as₂, rfl, rfl, hbefore, hwrong, hread⟩ := h
  exact ⟨item :: before, wrong, after, a :: as₁, b, as₂, rfl, rfl, .cons hsame hbefore, hwrong,
    hread⟩

theorem FirstMismatch.not_forall₂ {read : Bytes → Option (α × Bytes)} {text : τ → Bytes}
    {same : α → τ → Prop} {as : List α} {items : List τ}
    (h : FirstMismatch read text same as items) : ¬List.Forall₂ same as items := by
  obtain ⟨before, wrong, after, as₁, b, as₂, rfl, rfl, hbefore, hwrong, -⟩ := h
  intro hall
  induction hbefore with
  | nil => exact hwrong (List.forall₂_cons.mp hall).1
  | cons _ _ ih => exact ih (List.forall₂_cons.mp hall).2

/-- Elements written one after the other. -/
theorem recovers_repeatRead {limit : ℕ} {read : Bytes → Option (α × Bytes)} {text : τ → Bytes}
    {fits : τ → Prop} {items : List τ} (same : α → τ → Prop)
    (h : ∀ item ∈ items, Recovers limit read (same · item) (fits item) (text item)) (rest : Bytes)
    (hlimit : (items.flatMap text ++ rest).length < limit) :
    ((∀ item ∈ items, fits item) →
      ∃ as, repeatRead read items.length (items.flatMap text ++ rest) = some (as, rest) ∧
        List.Forall₂ same as items) ∧
    ((¬∀ item ∈ items, fits item) →
      ∀ as rest', repeatRead read items.length (items.flatMap text ++ rest) = some (as, rest') →
        FirstMismatch read text same as items) := by
  induction items with
  | nil => exact ⟨fun _ ↦ ⟨[], rfl, .nil⟩, fun hnot ↦ absurd (by simp) hnot⟩
  | cons item items ih =>
    rw [List.forall_mem_cons] at h
    have htext : (item :: items).flatMap text ++ rest = text item ++
        (items.flatMap text ++ rest) := by
      rw [List.flatMap_cons, List.append_assoc]
    rw [htext] at hlimit ⊢
    obtain ⟨hyes, hno⟩ := h.1 (items.flatMap text ++ rest) hlimit
    obtain ⟨ihyes, ihno⟩ := ih h.2 (by rw [List.length_append] at hlimit; omega)
    rw [List.forall_mem_cons]
    constructor
    · rintro ⟨hitem, hitems⟩
      obtain ⟨a, hread, ha⟩ := hyes hitem
      obtain ⟨as, hmore, has⟩ := ihyes hitems
      refine ⟨a :: as, ?_, .cons ha has⟩
      rw [List.length_cons, repeatRead, hread]
      simp only [Option.bind_eq_bind, Option.bind_some, hmore]
    · intro hnot as rest' hread
      obtain ⟨⟨a, s₁⟩, hfirst, hmore⟩ := Option.bind_eq_some_iff.mp hread
      obtain ⟨⟨as', s₂⟩, hrest, heq⟩ := Option.bind_eq_some_iff.mp hmore
      cases heq
      by_cases hitem : fits item
      · obtain ⟨a', hread', ha'⟩ := hyes hitem
        cases hfirst.symm.trans hread'
        exact (ihno (fun hitems ↦ hnot ⟨hitem, hitems⟩) as' rest' hrest).cons ha'
      · exact ⟨[], item, items, [], a, as', rfl, rfl, .nil, hno hitem a s₁ hfirst, _, _, hfirst⟩

end Lib
