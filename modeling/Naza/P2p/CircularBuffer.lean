import Naza.CryptoNote
import Naza.Lib.Ring

/-!
# The circular buffer

`CircularBuffer`, between streams that take and give what they like of what is asked for.  It is a
queue of bytes of fixed capacity.
-/

open Lib

namespace Naza

/-! ## Streams -/

/-- `IInputStream`: what `read_some` finds of the bytes that are to come. -/
class IInputStream (σ : Type) where
  readSome : σ → ℕ → Bytes × σ
  rest : σ → Bytes
  rest_eq : ∀ s size, rest s = (readSome s size).1 ++ rest (readSome s size).2
  length_le : ∀ s size, (readSome s size).1.length ≤ size

/-- `IOutputStream`: how many bytes `write_some` takes. -/
class IOutputStream (σ : Type) where
  writeSome : σ → Bytes → ℕ × σ
  written : σ → Bytes
  written_eq : ∀ s data,
    written (writeSome s data).2 = written s ++ data.take (writeSome s data).1
  le_length : ∀ s data, (writeSome s data).1 ≤ data.length

/-- `VectorStream` while it is written to. -/
structure VectorStream where
  buffer : Bytes := []
  deriving DecidableEq

instance : IOutputStream VectorStream where
  writeSome s data := (data.length, { buffer := s.buffer ++ data })
  written s := s.buffer
  written_eq s data := by rw [List.take_length]
  le_length _ _ := Nat.le_refl _

/-! ## The buffer -/

structure CircularBuffer where
  impl : Bytes
  readPos : ℕ := 0
  writePos : ℕ := 0
  deriving DecidableEq

namespace CircularBuffer

def make (si : ℕ) : CircularBuffer := { impl := List.replicate si 0 }

variable (b : CircularBuffer)

def clear : CircularBuffer := { b with readPos := 0, writePos := 0 }

def readCount : ℕ :=
  if b.writePos < b.impl.length then b.writePos - b.readPos else b.impl.length - b.readPos

def readCount2 : ℕ := if b.writePos < b.impl.length then 0 else b.writePos - b.impl.length

def writeCount : ℕ :=
  if b.writePos < b.impl.length then b.impl.length - b.writePos
  else b.readPos - (b.writePos - b.impl.length)

def writeCount2 : ℕ := if b.writePos < b.impl.length then b.readPos else 0

/-- `write_ptr`, from the start of the memory. -/
def writePtr : ℕ :=
  if b.writePos < b.impl.length then b.writePos else b.writePos - b.impl.length

def size : ℕ := b.readCount + b.readCount2

def capacity : ℕ := b.writeCount + b.writeCount2

def didWrite (count : ℕ) : Except Fault CircularBuffer := do
  let b := { b with writePos := b.writePos + count }
  invariant (b.writePos ≤ b.readPos + b.impl.length) "Writing past end of Buffer"
  return b

def didRead (count : ℕ) : Except Fault CircularBuffer := do
  let b := { b with readPos := b.readPos + count }
  invariant (b.readPos ≤ b.writePos) "Reading past end of Buffer"
  if b.impl.length ≤ b.readPos then
    return { b with readPos := b.readPos - b.impl.length, writePos := b.writePos - b.impl.length }
  else return b

/-- `memcpy` out of the memory, from `read_ptr` on. -/
def copyOut (count : ℕ) : Except Fault Bytes :=
  if b.readPos + count ≤ b.impl.length then .ok ((b.impl.drop b.readPos).take count)
  else .error .outOfRange

/-- `memcpy` into the memory, from `write_ptr` on. -/
def copyIn (data : Bytes) : Except Fault CircularBuffer :=
  if b.writePtr + data.length ≤ b.impl.length then
    .ok { b with impl := Ring.overwrite b.impl b.writePtr data }
  else .error .outOfRange

/-- `read_some`. -/
def readSome (size : ℕ) : Except Fault (Bytes × CircularBuffer) := do
  let rc := min size b.readCount
  let data ← b.copyOut rc
  let b ← b.didRead rc
  return (data, b)

/-- `write_some`. -/
def writeSome (data : Bytes) : Except Fault (ℕ × CircularBuffer) := do
  let rc := min data.length b.writeCount
  let b ← b.copyIn (data.take rc)
  let b ← b.didWrite rc
  return (rc, b)

/-- The rounds of `IInputStream::read`: `read_some` until there are enough bytes. -/
def readAll : ℕ → ℕ → CircularBuffer → Except Fault (Bytes × CircularBuffer)
  | fuel, count, b =>
    if count = 0 then .ok ([], b)
    else
      match fuel with
      | 0 => .error .diverged
      | fuel + 1 => do
        let (data, b) ← b.readSome count
        invariant (data.length ≠ 0) "IInputStream reading from empty stream"
        let (more, b) ← readAll fuel (count - data.length) b
        return (data ++ more, b)

/-- `IInputStream::read`. -/
def read (count : ℕ) : Except Fault (Bytes × CircularBuffer) := readAll count count b

/-- The rounds of `copy_from`. -/
def copyFromRounds {σ : Type} [IInputStream σ] :
    ℕ → CircularBuffer → σ → Except Fault (CircularBuffer × σ)
  | fuel, b, s =>
    if b.writeCount = 0 then .ok (b, s)
    else
      match fuel with
      | 0 => .error .diverged
      | fuel + 1 => do
        let (data, s) := IInputStream.readSome s b.writeCount
        let b ← b.copyIn data
        let b ← b.didWrite data.length
        if data.length = 0 then return (b, s) else copyFromRounds fuel b s

/-- `copy_from`; each round fills some of the capacity. -/
def copyFrom {σ : Type} [IInputStream σ] (s : σ) : Except Fault (CircularBuffer × σ) :=
  copyFromRounds b.impl.length b s

/-- The rounds of `copy_to`: what was copied, the buffer and the stream. -/
def copyToRounds {σ : Type} [IOutputStream σ] :
    ℕ → CircularBuffer → σ → ℕ → ℕ → Except Fault (ℕ × CircularBuffer × σ)
  | fuel, b, s, maxCount, totalCount =>
    let rc := min b.readCount maxCount
    if rc = 0 then .ok (totalCount, b, s)
    else
      match fuel with
      | 0 => .error .diverged
      | fuel + 1 => do
        let data ← b.copyOut rc
        let (count, s) := IOutputStream.writeSome s data
        let b ← b.didRead count
        if count = 0 then return (totalCount + count, b, s)
        else copyToRounds fuel b s (maxCount - count) (totalCount + count)

/-- `copy_to`; each round empties some of the buffer. -/
def copyTo {σ : Type} [IOutputStream σ] (s : σ) (maxCount : ℕ) :
    Except Fault (ℕ × CircularBuffer × σ) :=
  copyToRounds b.impl.length b s maxCount 0

end CircularBuffer

/-! ## A queue of bytes -/

namespace CircularBuffer

variable {b : CircularBuffer}

/-- The bytes in the buffer, in their order. -/
def contents (b : CircularBuffer) : Bytes := Ring.stored b.impl b.readPos b.writePos

/-- The positions are not apart by more than the memory, and reading starts within it. -/
structure Sound (capacity : ℕ) (b : CircularBuffer) : Prop where
  length_eq : b.impl.length = capacity
  le_write : b.readPos ≤ b.writePos
  write_le : b.writePos ≤ b.readPos + capacity
  read_lt : b.readPos < capacity ∨ b.readPos = 0

variable {n : ℕ}

theorem length_contents (b : CircularBuffer) : b.contents.length = b.writePos - b.readPos :=
  Ring.length_stored _ _ _

theorem sound_make (n : ℕ) : Sound n (make n) where
  length_eq := List.length_replicate
  le_write := Nat.le_refl _
  write_le := Nat.zero_le _
  read_lt := Or.inr rfl

theorem contents_make (n : ℕ) : (make n).contents = [] := Ring.stored_self _ _

theorem Sound.clear (h : Sound n b) : Sound n b.clear where
  length_eq := h.length_eq
  le_write := Nat.le_refl _
  write_le := Nat.zero_le _
  read_lt := Or.inr rfl

theorem contents_clear (b : CircularBuffer) : b.clear.contents = [] := Ring.stored_self _ _

theorem Sound.size_eq (h : Sound n b) : b.size = b.contents.length := by
  obtain ⟨hlength, hle, hwrite, hread⟩ := h
  rw [length_contents, size, readCount, readCount2, hlength]
  split_ifs <;> omega

theorem Sound.capacity_eq (h : Sound n b) : b.capacity = n - b.contents.length := by
  obtain ⟨hlength, hle, hwrite, hread⟩ := h
  rw [length_contents, capacity, writeCount, writeCount2, hlength]
  split_ifs <;> omega

theorem Sound.length_le (h : Sound n b) : b.contents.length ≤ n := by
  obtain ⟨hlength, hle, hwrite, hread⟩ := h
  rw [length_contents]
  omega

/-- There is nothing to read at once only if there is nothing. -/
theorem Sound.readCount_eq_zero_iff (h : Sound n b) : b.readCount = 0 ↔ b.contents = [] := by
  obtain ⟨hlength, hle, hwrite, hread⟩ := h
  rw [← List.length_eq_zero_iff, length_contents, readCount, hlength]
  split_ifs <;> omega

/-- There is no room at once only if there is none. -/
theorem Sound.writeCount_eq_zero_iff (h : Sound n b) :
    b.writeCount = 0 ↔ b.contents.length = n := by
  obtain ⟨hlength, hle, hwrite, hread⟩ := h
  rw [length_contents, writeCount, hlength]
  split_ifs <;> omega

theorem Sound.readCount_le (h : Sound n b) : b.readCount ≤ b.contents.length := by
  obtain ⟨hlength, hle, hwrite, hread⟩ := h
  rw [length_contents, readCount, hlength]
  split_ifs <;> omega

/-! ## Reading -/

theorem Sound.copyOut (h : Sound n b) {count : ℕ} (hcount : count ≤ b.readCount) :
    b.copyOut count = .ok (b.contents.take count) := by
  obtain ⟨hlength, hle, hwrite, hread⟩ := h
  have hbound : b.readPos + count ≤ b.impl.length ∧ count ≤ b.writePos - b.readPos := by
    rw [readCount, hlength] at hcount
    rw [hlength]
    split_ifs at hcount <;> omega
  have hfirst : b.contents.take count = Ring.stored b.impl b.readPos (b.readPos + count) := by
    rw [contents, Ring.stored_append (Nat.le_add_right b.readPos count) (by omega)]
    exact List.take_left' (by rw [Ring.length_stored]; omega)
  rw [CircularBuffer.copyOut, if_pos hbound.1, hfirst, Ring.stored_of_le hbound.1,
    Nat.add_sub_cancel_left]

/-- Bytes that were read leave at the front. -/
theorem Sound.didRead (h : Sound n b) {count : ℕ} (hcount : count ≤ b.readCount) :
    ∃ b', b.didRead count = .ok b' ∧ Sound n b' ∧ b'.contents = b.contents.drop count := by
  have hle := h.readCount_le
  rw [length_contents] at hle
  have hreadCount := hcount
  obtain ⟨hlength, hpos, hwrite, hread⟩ := h
  rw [readCount, hlength] at hreadCount
  have hdrop : b.contents.drop count = Ring.stored b.impl (b.readPos + count) b.writePos := by
    rw [contents, Ring.stored_append (Nat.le_add_right b.readPos count) (by omega)]
    exact List.drop_left' (by rw [Ring.length_stored]; omega)
  have hok : b.readPos + count ≤ b.writePos := by omega
  rw [hdrop]
  unfold CircularBuffer.didRead
  by_cases hwrap : b.impl.length ≤ b.readPos + count
  · refine ⟨_, by simp only [invariant, if_pos hok, if_pos hwrap]; rfl, ?_, ?_⟩
    · constructor
      · exact hlength
      all_goals
        dsimp only
        rw [hlength] at hwrap ⊢
        split_ifs at hreadCount <;> omega
    · -- both positions have gone once around
      have hshift := Ring.stored_add_length b.impl (b.readPos + count - b.impl.length)
        (b.writePos - b.impl.length)
      have hr : b.readPos + count - b.impl.length + b.impl.length = b.readPos + count := by omega
      have hw : b.writePos - b.impl.length + b.impl.length = b.writePos := by omega
      rw [hr, hw] at hshift
      exact hshift.symm
  · refine ⟨_, by simp only [invariant, if_pos hok, if_neg hwrap]; rfl, ?_, rfl⟩
    constructor
    · exact hlength
    all_goals
      dsimp only
      omega

/-! ## Writing -/

/-- Bytes that were copied in and counted stand at the back. -/
theorem Sound.append (h : Sound n b) {data : Bytes} (hdata : data.length ≤ b.writeCount) :
    ∃ b₁ b', b.copyIn data = .ok b₁ ∧ b₁.didWrite data.length = .ok b' ∧ Sound n b' ∧
      b'.contents = b.contents ++ data := by
  obtain ⟨hlength, hle, hwrite, hread⟩ := h
  rw [writeCount, hlength] at hdata
  have hfits : b.writePtr + data.length ≤ b.impl.length := by
    rw [writePtr, hlength]
    split_ifs at hdata ⊢ <;> omega
  have himpl := Ring.length_overwrite hfits
  refine ⟨{ b with impl := Ring.overwrite b.impl b.writePtr data },
    { b with
      impl := Ring.overwrite b.impl b.writePtr data
      writePos := b.writePos + data.length }, if_pos hfits, ?_, ?_, ?_⟩
  · have hok : b.writePos + data.length ≤
        b.readPos + (Ring.overwrite b.impl b.writePtr data).length := by
      rw [himpl, hlength]
      split_ifs at hdata <;> omega
    simp only [CircularBuffer.didWrite, invariant, if_pos hok]
    rfl
  · constructor
    · exact himpl.trans hlength
    all_goals
      dsimp only
      split_ifs at hdata <;> omega
  · -- what was there is not written over, and the data stand behind it
    change Ring.stored (Ring.overwrite b.impl b.writePtr data) b.readPos
      (b.writePos + data.length) = _
    rw [Ring.stored_append hle (Nat.le_add_right _ _)]
    congr 1
    · refine Ring.stored_overwrite_of_not hfits fun i hi hlt ↦ ?_
      rw [writePtr, hlength] at hfits ⊢
      by_cases hin : i < n
      · rw [Nat.mod_eq_of_lt hin]
        split_ifs at hdata hfits ⊢ <;> omega
      · have hmod : i % n = i - n := by
          rw [Nat.mod_eq_sub_mod (by omega), Nat.mod_eq_of_lt (by omega)]
        rw [hmod]
        split_ifs at hdata hfits ⊢ <;> omega
    · have hdone := Ring.take_drop_overwrite hfits
      rw [writePtr, hlength] at hfits hdone
      by_cases hflat : b.writePos < n
      · rw [if_pos hflat] at hfits hdone hdata
        have hptr : b.writePtr = b.writePos := by rw [writePtr, hlength, if_pos hflat]
        rw [hptr] at himpl ⊢
        rw [Ring.stored_of_le (by omega), Nat.add_sub_cancel_left, hdone]
      · rw [if_neg hflat] at hfits hdone hdata
        have hptr : b.writePtr = b.writePos - n := by rw [writePtr, hlength, if_neg hflat]
        rw [hptr] at himpl ⊢
        rw [Ring.stored_of_ge (by omega) (by omega), Nat.add_sub_cancel_left, himpl, hlength, hdone]

/-! ## The operations -/

theorem Sound.readSome (h : Sound n b) (size : ℕ) :
    ∃ data b', b.readSome size = .ok (data, b') ∧ Sound n b' ∧
      b.contents = data ++ b'.contents ∧ data.length ≤ size ∧
        (data = [] → size = 0 ∨ b.contents = []) := by
  have hrc : min size b.readCount ≤ b.readCount := Nat.min_le_right _ _
  obtain ⟨b', hread, hsound, hcontents⟩ := h.didRead hrc
  have hle := h.readCount_le
  refine ⟨b.contents.take (min size b.readCount), b', ?_, hsound, ?_, ?_, fun hnil ↦ ?_⟩
  · simp only [CircularBuffer.readSome, bind_eq_ok_iff]
    exact ⟨_, h.copyOut hrc, b', hread, rfl⟩
  · rw [hcontents, List.take_append_drop]
  · rw [List.length_take]
    omega
  · rw [← h.readCount_eq_zero_iff]
    have hlength := congrArg List.length hnil
    rw [List.length_take, List.length_nil] at hlength
    omega

theorem Sound.writeSome (h : Sound n b) (data : Bytes) :
    ∃ count b', b.writeSome data = .ok (count, b') ∧ Sound n b' ∧
      b'.contents = b.contents ++ data.take count ∧ count ≤ data.length ∧
        (count = 0 → data = [] ∨ b.contents.length = n) := by
  have hlength : (data.take (min data.length b.writeCount)).length =
      min data.length b.writeCount := by
    rw [List.length_take]
    omega
  obtain ⟨b₁, b', hcopy, hwrite, hsound, hcontents⟩ :=
    h.append (hlength.le.trans (Nat.min_le_right _ _))
  rw [hlength] at hwrite
  refine ⟨min data.length b.writeCount, b', ?_, hsound, hcontents, Nat.min_le_left _ _, ?_⟩
  · simp only [CircularBuffer.writeSome, bind_eq_ok_iff]
    exact ⟨b₁, hcopy, b', hwrite, rfl⟩
  · intro hzero
    rw [← h.writeCount_eq_zero_iff, ← List.length_eq_zero_iff]
    omega

/-- `read` finds as many bytes as asked for, where there are as many. -/
theorem Sound.readAll (h : Sound n b) {fuel count : ℕ} (hcount : count ≤ b.contents.length)
    (hfuel : count ≤ fuel) :
    ∃ b', CircularBuffer.readAll fuel count b = .ok (b.contents.take count, b') ∧ Sound n b' ∧
      b'.contents = b.contents.drop count := by
  induction fuel generalizing b count with
  | zero =>
    have hzero : count = 0 := Nat.le_zero.1 hfuel
    subst hzero
    refine ⟨b, ?_, h, rfl⟩
    unfold CircularBuffer.readAll
    rw [if_pos rfl, List.take_zero]
  | succ fuel ih =>
    unfold CircularBuffer.readAll
    by_cases hzero : count = 0
    · subst hzero
      exact ⟨b, by rw [if_pos rfl, List.take_zero], h, rfl⟩
    rw [if_neg hzero]
    obtain ⟨data, b₁, hread, hsound, hcontents, hle, hnil⟩ := h.readSome count
    have hlength := congrArg List.length hcontents
    rw [List.length_append] at hlength
    have hne : data.length ≠ 0 := by
      intro hempty
      rcases hnil (List.length_eq_zero_iff.1 hempty) with hcount' | hempty'
      · exact hzero hcount'
      · rw [hempty', List.length_nil] at hcount
        omega
    have hcount' : count - data.length ≤ b₁.contents.length := by omega
    have hfuel' : count - data.length ≤ fuel := by omega
    obtain ⟨b', hmore, hsound', hcontents'⟩ := ih hsound hcount' hfuel'
    refine ⟨b', ?_, hsound', ?_⟩
    · simp only [bind_eq_ok_iff, invariant_eq_ok_iff]
      refine ⟨(data, b₁), hread, (), hne, _, hmore, ?_⟩
      rw [hcontents, List.take_append, List.take_of_length_le hle]
      rfl
    · rw [hcontents', hcontents, List.drop_append, List.drop_of_length_le hle, List.nil_append]

theorem Sound.read (h : Sound n b) {count : ℕ} (hcount : count ≤ b.contents.length) :
    ∃ b', b.read count = .ok (b.contents.take count, b') ∧ Sound n b' ∧
      b'.contents = b.contents.drop count :=
  h.readAll hcount (Nat.le_refl _)

/-- The last call on a stream found nothing. -/
def Dry {σ : Type} [IInputStream σ] (s : σ) : Prop :=
  ∃ s₁ size, 0 < size ∧ IInputStream.readSome s₁ size = ([], s)

/-- The last call on a stream took nothing. -/
def Refuses {σ : Type} [IOutputStream σ] (s : σ) : Prop :=
  ∃ s₁ data, data ≠ [] ∧ IOutputStream.writeSome s₁ data = (0, s)

theorem Sound.copyFromRounds (h : Sound n b) {σ : Type} [IInputStream σ] (s : σ) {fuel : ℕ}
    (hfuel : n ≤ b.contents.length + fuel) :
    ∃ b' s' taken, CircularBuffer.copyFromRounds fuel b s = .ok (b', s') ∧ Sound n b' ∧
      IInputStream.rest s = taken ++ IInputStream.rest s' ∧
        b'.contents = b.contents ++ taken ∧ (b'.contents.length = n ∨ Dry s') ∧
          ∀ P : σ → Prop, (∀ s size, P s → P (IInputStream.readSome s size).2) → P s → P s' := by
  have hfull : ∀ {b : CircularBuffer} (s : σ) (fuel : ℕ), Sound n b → b.contents.length = n →
      CircularBuffer.copyFromRounds fuel b s = .ok (b, s) := by
    intro b s fuel hb hn
    unfold CircularBuffer.copyFromRounds
    exact if_pos (hb.writeCount_eq_zero_iff.2 hn)
  induction fuel generalizing b s with
  | zero =>
    have hn : b.contents.length = n := Nat.le_antisymm h.length_le hfuel
    exact ⟨b, s, [], hfull s 0 h hn, h, rfl, (List.append_nil _).symm, Or.inl hn,
      fun _ _ hP ↦ hP⟩
  | succ fuel ih =>
    by_cases hn : b.contents.length = n
    · exact ⟨b, s, [], hfull s _ h hn, h, rfl, (List.append_nil _).symm, Or.inl hn,
        fun _ _ hP ↦ hP⟩
    have hroom : b.writeCount ≠ 0 := fun hzero ↦ hn (h.writeCount_eq_zero_iff.1 hzero)
    have hrest := IInputStream.rest_eq s b.writeCount
    have hle := IInputStream.length_le s b.writeCount
    have hkeeps : ∀ P : σ → Prop, (∀ s size, P s → P (IInputStream.readSome s size).2) → P s →
        P (IInputStream.readSome s b.writeCount).2 := fun P hP hs ↦ hP s _ hs
    rw [CircularBuffer.copyFromRounds, if_neg hroom]
    generalize hsome : IInputStream.readSome s b.writeCount = found at hrest hle hkeeps
    obtain ⟨data, s₁⟩ := found
    dsimp only at hrest hle hkeeps
    obtain ⟨b₀, b₁, hcopy, hwrite, hsound, hcontents⟩ := h.append hle
    by_cases hempty : data.length = 0
    · refine ⟨b₁, s₁, data, ?_, hsound, hrest, hcontents,
        Or.inr ⟨s, b.writeCount, ?_, ?_⟩, hkeeps⟩
      · simp only [bind_eq_ok_iff]
        exact ⟨b₀, hcopy, b₁, hwrite, if_pos hempty⟩
      · exact Nat.pos_of_ne_zero hroom
      · rw [hsome, List.length_eq_zero_iff.1 hempty]
    · have hlength := congrArg List.length hcontents
      rw [List.length_append] at hlength
      obtain ⟨b', s', taken, hok, hsound', hrest', hcontents', hstop, hkeeps'⟩ :=
        ih hsound s₁ (by omega)
      refine ⟨b', s', data ++ taken, ?_, hsound', ?_, ?_, hstop,
        fun P hP hs ↦ hkeeps' P hP (hkeeps P hP hs)⟩
      · simp only [bind_eq_ok_iff]
        exact ⟨b₀, hcopy, b₁, hwrite, by rw [if_neg hempty]; exact hok⟩
      · rw [hrest, List.append_assoc]
        exact congrArg (data ++ ·) hrest'
      · rw [hcontents', hcontents, List.append_assoc]

/-- `copy_from` moves bytes to the back until the buffer is full or the stream finds nothing. -/
theorem Sound.copyFrom (h : Sound n b) {σ : Type} [IInputStream σ] (s : σ) :
    ∃ b' s' taken, b.copyFrom s = .ok (b', s') ∧ Sound n b' ∧
      IInputStream.rest s = taken ++ IInputStream.rest s' ∧
        b'.contents = b.contents ++ taken ∧ (b'.contents.length = n ∨ Dry s') ∧
          ∀ P : σ → Prop, (∀ s size, P s → P (IInputStream.readSome s size).2) → P s → P s' :=
  h.copyFromRounds s (by rw [h.length_eq]; omega)

theorem Sound.copyToRounds (h : Sound n b) {σ : Type} [IOutputStream σ] (s : σ)
    {fuel : ℕ} (maxCount totalCount : ℕ) (hfuel : b.contents.length ≤ fuel) :
    ∃ b' s' given,
      CircularBuffer.copyToRounds fuel b s maxCount totalCount =
        .ok (totalCount + given.length, b', s') ∧ Sound n b' ∧
      IOutputStream.written s' = IOutputStream.written s ++ given ∧
      b.contents = given ++ b'.contents ∧ given.length ≤ maxCount ∧
        (given.length = maxCount ∨ b'.contents = [] ∨ Refuses s') := by
  have hdone : ∀ {b : CircularBuffer} (s : σ) (fuel maxCount totalCount : ℕ), Sound n b →
      min b.readCount maxCount = 0 →
        CircularBuffer.copyToRounds fuel b s maxCount totalCount = .ok (totalCount, b, s) := by
    intro b s fuel maxCount totalCount hb hzero
    unfold CircularBuffer.copyToRounds
    exact if_pos hzero
  have hstop : ∀ {b : CircularBuffer} {maxCount : ℕ}, Sound n b → min b.readCount maxCount = 0 →
      0 = maxCount ∨ b.contents = [] := by
    intro b maxCount hb hzero
    rw [← hb.readCount_eq_zero_iff]
    omega
  induction fuel generalizing b s maxCount totalCount with
  | zero =>
    have hempty := h.readCount_le
    have hzero : min b.readCount maxCount = 0 := by omega
    exact ⟨b, s, [], hdone s 0 maxCount totalCount h hzero, h, (List.append_nil _).symm, rfl,
      Nat.zero_le _, (hstop h hzero).imp_right Or.inl⟩
  | succ fuel ih =>
    by_cases hzero : min b.readCount maxCount = 0
    · exact ⟨b, s, [], hdone s _ maxCount totalCount h hzero, h, (List.append_nil _).symm, rfl,
        Nat.zero_le _, (hstop h hzero).imp_right Or.inl⟩
    have hrc : min b.readCount maxCount ≤ b.readCount := Nat.min_le_left _ _
    have hlength : (b.contents.take (min b.readCount maxCount)).length =
        min b.readCount maxCount := by
      rw [List.length_take]
      have hle := h.readCount_le
      omega
    have hwritten := IOutputStream.written_eq s (b.contents.take (min b.readCount maxCount))
    have hle := IOutputStream.le_length s (b.contents.take (min b.readCount maxCount))
    rw [CircularBuffer.copyToRounds]
    dsimp only
    rw [if_neg hzero]
    generalize hsome : IOutputStream.writeSome s (b.contents.take (min b.readCount maxCount)) =
      taken at hwritten hle
    obtain ⟨count, s₁⟩ := taken
    rw [hlength] at hle
    obtain ⟨b₁, hread, hsound, hcontents⟩ := h.didRead (hle.trans hrc)
    have htake : (b.contents.take (min b.readCount maxCount)).take count =
        b.contents.take count := by
      rw [List.take_take, Nat.min_eq_left hle]
    have hcount : (b.contents.take count).length = count := by
      rw [List.length_take]
      have hrest := h.readCount_le
      omega
    rw [htake] at hwritten
    have hsplit : b.contents = b.contents.take count ++ b₁.contents := by
      rw [hcontents, List.take_append_drop]
    by_cases hnone : count = 0
    · refine ⟨b₁, s₁, b.contents.take count, ?_, hsound, hwritten, hsplit, by omega, ?_⟩
      · simp only [bind_eq_ok_iff]
        exact ⟨_, h.copyOut hrc, by
          rw [hsome]; exact ⟨b₁, hread, by rw [if_pos hnone, hcount]; rfl⟩⟩
      · refine Or.inr (Or.inr ⟨s, _, fun hnil ↦ hzero ?_, by rw [hsome, hnone]⟩)
        rw [← hlength, hnil, List.length_nil]
    · have hshort := congrArg List.length hcontents
      rw [List.length_drop] at hshort
      obtain ⟨b', s', given, hok, hsound', hwritten', hcontents', hgiven, hend⟩ :=
        ih hsound s₁ (maxCount - count) (totalCount + count) (by omega)
      refine ⟨b', s', b.contents.take count ++ given, ?_, hsound', ?_, ?_, ?_, ?_⟩
      · simp only [bind_eq_ok_iff]
        refine ⟨_, h.copyOut hrc, ?_⟩
        rw [hsome]
        refine ⟨b₁, hread, ?_⟩
        rw [if_neg hnone, hok, List.length_append, hcount, Nat.add_assoc]
      · rw [hwritten', hwritten, List.append_assoc]
      · rw [List.append_assoc, ← hcontents', ← hsplit]
      · rw [List.length_append, hcount]
        omega
      · refine hend.imp_left fun heq ↦ ?_
        rw [List.length_append, hcount]
        omega

/-- `copy_to` moves bytes from the front until there are none, or enough, or none is taken. -/
theorem Sound.copyTo (h : Sound n b) {σ : Type} [IOutputStream σ] (s : σ) (maxCount : ℕ) :
    ∃ b' s' given, b.copyTo s maxCount = .ok (given.length, b', s') ∧ Sound n b' ∧
      IOutputStream.written s' = IOutputStream.written s ++ given ∧
      b.contents = given ++ b'.contents ∧ given.length ≤ maxCount ∧
        (given.length = maxCount ∨ b'.contents = [] ∨ Refuses s') := by
  have hrounds := h.copyToRounds s maxCount 0 (h.length_eq ▸ h.length_le)
  unfold CircularBuffer.copyTo
  simpa only [Nat.zero_add] using hrounds

/-! ## Any interleaving -/

/-- A buffer of `n` bytes after some operations, the bytes that went in and those that came out. -/
inductive Exchanges (n : ℕ) : CircularBuffer → Bytes → Bytes → Prop
  | make : Exchanges n (make n) [] []
  | readSome {b b' : CircularBuffer} {bytesIn bytesOut data : Bytes} (size : ℕ)
    (h : Exchanges n b bytesIn bytesOut) (hok : b.readSome size = .ok (data, b')) :
    Exchanges n b' bytesIn (bytesOut ++ data)
  | writeSome {b b' : CircularBuffer} {bytesIn bytesOut : Bytes} {count : ℕ} (data : Bytes)
    (h : Exchanges n b bytesIn bytesOut) (hok : b.writeSome data = .ok (count, b')) :
    Exchanges n b' (bytesIn ++ data.take count) bytesOut
  | copyFrom {b b' : CircularBuffer} {bytesIn bytesOut taken : Bytes} {σ : Type}
    [IInputStream σ] {s s' : σ} (h : Exchanges n b bytesIn bytesOut)
    (hok : b.copyFrom s = .ok (b', s'))
    (htaken : IInputStream.rest s = taken ++ IInputStream.rest s') :
    Exchanges n b' (bytesIn ++ taken) bytesOut
  | copyTo {b b' : CircularBuffer} {bytesIn bytesOut given : Bytes} {σ : Type}
    [IOutputStream σ] {s s' : σ} {maxCount total : ℕ} (h : Exchanges n b bytesIn bytesOut)
    (hok : b.copyTo s maxCount = .ok (total, b', s'))
    (hgiven : IOutputStream.written s' = IOutputStream.written s ++ given) :
    Exchanges n b' bytesIn (bytesOut ++ given)

/-- A queue of bytes of capacity `n`: what came out is what went in, up to the bytes inside, and no
operation fails or stands still without need. -/
structure Fifo (n : ℕ) (b : CircularBuffer) (bytesIn bytesOut : Bytes) : Prop where
  order : bytesIn = bytesOut ++ b.contents
  size_eq : b.size = b.contents.length
  capacity_eq : b.size + b.capacity = n
  reads : ∀ size, ∃ data b', b.readSome size = .ok (data, b') ∧ data.length ≤ size ∧
    (data = [] → size = 0 ∨ b.contents = [])
  writes : ∀ data, ∃ count b', b.writeSome data = .ok (count, b') ∧ count ≤ data.length ∧
    (count = 0 → data = [] ∨ b.contents.length = n)
  fills : ∀ (σ : Type) [IInputStream σ] (s : σ), ∃ b' s', b.copyFrom s = .ok (b', s') ∧
    (b'.contents.length = n ∨ Dry s')
  empties : ∀ (σ : Type) [IOutputStream σ] (s : σ) (maxCount : ℕ), ∃ total b' s',
    b.copyTo s maxCount = .ok (total, b', s') ∧ total ≤ maxCount ∧
      (total = maxCount ∨ b'.contents = [] ∨ Refuses s')

/-- The order is kept, step by step. -/
theorem Exchanges.sound {bytesIn bytesOut : Bytes} (h : Exchanges n b bytesIn bytesOut) :
    Sound n b ∧ bytesIn = bytesOut ++ b.contents := by
  induction h with
  | make => exact ⟨sound_make n, (contents_make n).symm⟩
  | readSome size _ hok ih =>
    obtain ⟨data, b', hok', hsound, hcontents, -⟩ := ih.1.readSome size
    rw [hok, Except.ok.injEq, Prod.mk.injEq] at hok'
    obtain ⟨rfl, rfl⟩ := hok'
    exact ⟨hsound, by rw [ih.2, hcontents, List.append_assoc]⟩
  | writeSome data _ hok ih =>
    obtain ⟨count, b', hok', hsound, hcontents, -⟩ := ih.1.writeSome data
    rw [hok, Except.ok.injEq, Prod.mk.injEq] at hok'
    obtain ⟨rfl, rfl⟩ := hok'
    exact ⟨hsound, by rw [ih.2, hcontents, List.append_assoc]⟩
  | @copyFrom _ _ _ _ _ _ _ s _ _ hok htaken ih =>
    obtain ⟨b', s', taken, hok', hsound, hrest, hcontents, -⟩ := ih.1.copyFrom s
    rw [hok, Except.ok.injEq, Prod.mk.injEq] at hok'
    obtain ⟨rfl, rfl⟩ := hok'
    rw [htaken] at hrest
    rw [ih.2, hcontents, List.append_cancel_right hrest]
    exact ⟨hsound, List.append_assoc _ _ _⟩
  | @copyTo _ _ _ _ _ _ _ s _ maxCount _ _ hok hgiven ih =>
    obtain ⟨b', s', given, hok', hsound, hwritten, hcontents, -⟩ := ih.1.copyTo s maxCount
    rw [hok, Except.ok.injEq, Prod.mk.injEq, Prod.mk.injEq] at hok'
    obtain ⟨-, rfl, rfl⟩ := hok'
    rw [hgiven] at hwritten
    rw [ih.2, hcontents, List.append_cancel_left hwritten]
    exact ⟨hsound, (List.append_assoc _ _ _).symm⟩

/-- The buffer is a queue of bytes under any interleaving of its operations. -/
theorem Exchanges.fifo {bytesIn bytesOut : Bytes} (h : Exchanges n b bytesIn bytesOut) :
    Fifo n b bytesIn bytesOut := by
  obtain ⟨hsound, horder⟩ := h.sound
  refine ⟨horder, hsound.size_eq, ?_, fun size ↦ ?_, fun data ↦ ?_, fun σ _ s ↦ ?_,
    fun σ _ s maxCount ↦ ?_⟩
  · have hle := hsound.length_le
    rw [hsound.size_eq, hsound.capacity_eq]
    omega
  · obtain ⟨data, b', hok, -, -, hle, hnil⟩ := hsound.readSome size
    exact ⟨data, b', hok, hle, hnil⟩
  · obtain ⟨count, b', hok, -, -, hle, hzero⟩ := hsound.writeSome data
    exact ⟨count, b', hok, hle, hzero⟩
  · obtain ⟨b', s', taken, hok, -, -, -, hstop, -⟩ := hsound.copyFrom s
    exact ⟨b', s', hok, hstop⟩
  · obtain ⟨b', s', given, hok, -, -, -, hle, hstop⟩ := hsound.copyTo s maxCount
    exact ⟨given.length, b', s', hok, hle, hstop⟩

end CircularBuffer

end Naza
