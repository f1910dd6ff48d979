import Mathlib

/-!
# In-place deserialization from a byte stream

A `Reader α` fills an object in place.  When it throws, the object keeps whatever had been filled
by then, so a caller that swallows the exception sees a half-filled object; the stream left to
read is then `none`.  `Reads` says that a reader turns one object into another while consuming
exactly the given bytes, whatever follows them; its rules follow the combinators.
-/

namespace Lib

/-- A byte sequence. -/
abbrev Bytes := List UInt8

/-- Fill an object from a stream: the object afterwards, and the stream left, or `none` when the
reader threw. -/
abbrev Reader (α : Type) := α → Bytes → α × Option Bytes

namespace Reader

variable {α β : Type}

/-- The reader that reads nothing. -/
def done : Reader α := fun a b ↦ (a, some b)

/-- The reader that throws at once. -/
def throw : Reader α := fun a _ ↦ (a, none)

/-- One reader after the other on the same object. -/
def andThen (r₁ r₂ : Reader α) : Reader α := fun a b ↦
  match r₁ a b with
  | (a', some b') => r₂ a' b'
  | (a', none) => (a', none)

/-- Read one member of an object. -/
def field (get : α → β) (set : α → β → α) (r : Reader β) : Reader α := fun a b ↦
  let (x, rest) := r (get a) b
  (set a x, rest)

/-- Choose a reader by what has been read so far. -/
def dependent (r : α → Reader α) : Reader α := fun a b ↦ r a a b

/-- Fill `n` fresh elements one after the other; those not reached keep the default. -/
def elements (r : Reader β) (fresh : β) : ℕ → Bytes → List β × Option Bytes
  | 0, b => ([], some b)
  | n + 1, b =>
    match r fresh b with
    | (x, none) => (x :: List.replicate n fresh, none)
    | (x, some b') =>
      let (xs, rest) := elements r fresh n b'
      (x :: xs, rest)

/-- The reader `r` turns `a` into `a'`, consuming exactly `bs`. -/
def Reads (r : Reader α) (bs : Bytes) (a a' : α) : Prop :=
  ∀ rest, r a (bs ++ rest) = (a', some rest)

theorem Reads.done (a : α) : Reads done [] a a := fun _ ↦ rfl

theorem Reads.andThen {r₁ r₂ : Reader α} {bs₁ bs₂ : Bytes} {a a₁ a₂ : α}
    (h₁ : Reads r₁ bs₁ a a₁) (h₂ : Reads r₂ bs₂ a₁ a₂) :
    Reads (r₁.andThen r₂) (bs₁ ++ bs₂) a a₂ := by
  intro rest
  simp only [Reader.andThen, List.append_assoc, h₁ (bs₂ ++ rest), h₂ rest]

theorem Reads.field {get : α → β} {set : α → β → α} {r : Reader β} {bs : Bytes} {a : α} {x : β}
    (h : Reads r bs (get a) x) : Reads (Reader.field get set r) bs a (set a x) := by
  intro rest
  simp only [Reader.field, h rest]

theorem Reads.dependent {r : α → Reader α} {bs : Bytes} {a a' : α} (h : Reads (r a) bs a a') :
    Reads (Reader.dependent r) bs a a' := h

/-- Elements written one after the other are read back one after the other. -/
theorem elements_flatten {r : Reader β} {fresh : β} {xs : List β} {bss : List Bytes}
    (h : List.Forall₂ (fun x bs ↦ Reads r bs fresh x) xs bss) (rest : Bytes) :
    elements r fresh xs.length (bss.flatten ++ rest) = (xs, some rest) := by
  induction h with
  | nil => rfl
  | @cons x bs xs bss hx _ ih =>
    simp only [List.length_cons, elements, List.flatten_cons, List.append_assoc,
      hx (bss.flatten ++ rest), ih]

/-! ## What has been read -/

/-- Where the reader does not throw it has consumed bytes that `P` relates to the object before and
after. -/
def Yields (r : Reader α) (P : α → α → Bytes → Prop) : Prop :=
  ∀ a b a' rest, r a b = (a', some rest) → ∃ bs, b = bs ++ rest ∧ P a a' bs

theorem Yields.imp {r : Reader α} {P Q : α → α → Bytes → Prop} (h : Yields r P)
    (himp : ∀ a a' bs, P a a' bs → Q a a' bs) : Yields r Q := by
  intro a b a' rest hr
  obtain ⟨bs, hb, hP⟩ := h a b a' rest hr
  exact ⟨bs, hb, himp a a' bs hP⟩

theorem Yields.done : Yields (done : Reader α) fun a a' bs ↦ a' = a ∧ bs = [] := by
  intro a b a' rest hr
  obtain ⟨ha, hb⟩ := Prod.mk.inj hr
  exact ⟨[], (Option.some.inj hb), ha.symm, rfl⟩

theorem Yields.throw : Yields (throw : Reader α) fun _ _ _ ↦ False := by
  intro a b a' rest hr
  cases (Prod.mk.inj hr).2

theorem Yields.andThen {r₁ r₂ : Reader α} {P₁ P₂ : α → α → Bytes → Prop} (h₁ : Yields r₁ P₁)
    (h₂ : Yields r₂ P₂) : Yields (r₁.andThen r₂) fun a a'' bs ↦
      ∃ a' bs₁ bs₂, bs = bs₁ ++ bs₂ ∧ P₁ a a' bs₁ ∧ P₂ a' a'' bs₂ := by
  intro a b a'' rest hr
  unfold Reader.andThen at hr
  split at hr
  · next a' b' hr₁ =>
    obtain ⟨bs₁, hb₁, hP₁⟩ := h₁ a b a' b' hr₁
    obtain ⟨bs₂, hb₂, hP₂⟩ := h₂ a' b' a'' rest hr
    exact ⟨bs₁ ++ bs₂, by rw [hb₁, hb₂, List.append_assoc], a', bs₁, bs₂, rfl, hP₁, hP₂⟩
  · cases (Prod.mk.inj hr).2

theorem Yields.field {get : α → β} {set : α → β → α} {r : Reader β}
    {P : β → β → Bytes → Prop} (h : Yields r P) :
    Yields (Reader.field get set r) fun a a' bs ↦ ∃ x, a' = set a x ∧ P (get a) x bs := by
  intro a b a' rest hr
  obtain ⟨ha, hrest⟩ := Prod.mk.inj hr
  obtain ⟨bs, hb, hP⟩ := h (get a) b (r (get a) b).1 rest (Prod.ext rfl hrest)
  exact ⟨bs, hb, _, ha.symm, hP⟩

theorem Yields.dependent {r : α → Reader α} {P : α → α → α → Bytes → Prop}
    (h : ∀ a, Yields (r a) (P a)) : Yields (Reader.dependent r) fun a a' bs ↦ P a a a' bs :=
  fun a b a' rest hr ↦ h a a b a' rest hr

/-- Elements that were read had been written one after the other. -/
theorem elements_yields {r : Reader β} {fresh : β} {w : β → Bytes}
    (h : Yields r fun _ x bs ↦ bs = w x) {n : ℕ} {b : Bytes} {xs : List β} {rest : Bytes}
    (hr : elements r fresh n b = (xs, some rest)) :
    b = (xs.map w).flatten ++ rest ∧ xs.length = n := by
  induction n generalizing b xs with
  | zero =>
    obtain ⟨rfl, hb⟩ := Prod.mk.inj hr
    exact ⟨Option.some.inj hb, rfl⟩
  | succ n ih =>
    unfold elements at hr
    split at hr
    · cases (Prod.mk.inj hr).2
    · next x b' hx =>
      obtain ⟨bs, hb, rfl⟩ := h fresh b x b' hx
      generalize helements : elements r fresh n b' = e at hr
      obtain ⟨ys, tail⟩ := e
      obtain ⟨rfl, rfl⟩ := Prod.mk.inj hr
      obtain ⟨htail, hlen⟩ := ih helements
      rw [hb, htail]
      exact ⟨by simp, by simp [hlen]⟩

end Reader

/-! ## Fixed-width integers -/

/-- The value of a byte sequence, most significant byte first. -/
def bytesToNat (bs : Bytes) : ℕ := bs.foldl (fun acc b ↦ acc * 256 + b.toNat) 0

/-- The lowest `n` bytes of a number, most significant byte first. -/
def natToBytes : ℕ → ℕ → Bytes
  | 0, _ => []
  | n + 1, x => UInt8.ofNat (x / 256 ^ n) :: natToBytes n x

@[simp]
theorem length_natToBytes (n x : ℕ) : (natToBytes n x).length = n := by
  induction n with
  | zero => rfl
  | succ n ih => simp [natToBytes, ih]

theorem foldl_bytes (bs : Bytes) (acc : ℕ) :
    bs.foldl (fun acc b ↦ acc * 256 + b.toNat) acc = acc * 256 ^ bs.length + bytesToNat bs := by
  induction bs generalizing acc with
  | nil => simp [bytesToNat]
  | cons b bs ih =>
    rw [List.foldl_cons, ih]
    conv_rhs => rw [bytesToNat, List.foldl_cons, ih]
    rw [List.length_cons, pow_succ]
    ring

theorem bytesToNat_natToBytes (n x : ℕ) : bytesToNat (natToBytes n x) = x % 256 ^ n := by
  induction n with
  | zero => simp [natToBytes, bytesToNat, Nat.mod_one]
  | succ n ih =>
    have hbyte : (UInt8.ofNat (x / 256 ^ n)).toNat = x / 256 ^ n % 256 := by
      simp
    rw [natToBytes, bytesToNat, List.foldl_cons, foldl_bytes, ih, length_natToBytes, hbyte,
      pow_succ, Nat.mod_mul]
    ring

theorem bytesToNat_lt (bs : Bytes) : bytesToNat bs < 256 ^ bs.length := by
  induction bs with
  | nil => simp [bytesToNat]
  | cons b bs ih =>
    have hb : b.toNat < 256 := b.toNat_lt
    rw [bytesToNat, List.foldl_cons, foldl_bytes, List.length_cons, pow_succ]
    nlinarith [Nat.pos_of_ne_zero (pow_ne_zero bs.length (by norm_num : (256 : ℕ) ≠ 0))]

theorem natToBytes_add_mul (n x k : ℕ) : natToBytes n (k * 256 ^ n + x) = natToBytes n x := by
  induction n generalizing k with
  | zero => rfl
  | succ n ih =>
    have hsplit : k * 256 ^ (n + 1) + x = k * 256 * 256 ^ n + x := by ring
    have hbyte : UInt8.ofNat ((k * 256 ^ (n + 1) + x) / 256 ^ n) = UInt8.ofNat (x / 256 ^ n) := by
      apply UInt8.toNat_inj.1
      rw [hsplit, Nat.add_comm, Nat.add_mul_div_right _ _ (by positivity)]
      simp
    rw [natToBytes, natToBytes, hbyte, hsplit, ih]

/-- A byte sequence is what its value gives at its length. -/
theorem natToBytes_bytesToNat (bs : Bytes) : natToBytes bs.length (bytesToNat bs) = bs := by
  induction bs with
  | nil => rfl
  | cons b bs ih =>
    have hvalue : bytesToNat (b :: bs) = b.toNat * 256 ^ bs.length + bytesToNat bs := by
      rw [bytesToNat, List.foldl_cons, foldl_bytes]
      simp
    have hlt : bytesToNat bs / 256 ^ bs.length = 0 := Nat.div_eq_of_lt (bytesToNat_lt bs)
    rw [List.length_cons, natToBytes, hvalue, natToBytes_add_mul, ih, Nat.add_comm,
      Nat.add_mul_div_right _ _ (by positivity), hlt, Nat.zero_add, UInt8.ofNat_toNat]

end Lib
