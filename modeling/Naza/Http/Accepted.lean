import Naza.Http.RoundTrip

/-!
# What the parsers accept

Whatever bytes a parser reads, it changes the last header only where there is one, and the headers
of a message that it accepts can be written in lines of their own.
-/

open Lib

namespace Naza.Http

open Json (ascii text decimal isDigit decimalValue)

/-! ## Headers -/

/-- The states in which a header is read. -/
def ParserState.inHeader {σ : Type} : ParserState σ → Bool
  | .headerLws | .headerName | .spaceBeforeHeaderValue | .headerValue => true
  | _ => false

/-- A header in the list: it can be written in a line, and it is one of those that stay there. -/
structure Header.Kept (stays : Header → Prop) (h : Header) : Prop where
  text : h.Text
  stays : stays h

/-- What is put behind the value of a header that stays does not matter. -/
def Extends (stays : Header → Prop) : Prop :=
  ∀ h value, stays h → stays { h with value := h.value ++ value }

/-- A line starts with a blank, so that it continues the header above it. -/
def Continued (xs : Bytes) : Prop := ∃ c, (c = space ∨ c = tab) ∧ [lf, c] <:+: xs

section Headers

variable {α σ : Type}

/-- The headers that a parser has read, in each state. -/
def HeadersRead (stays : Header → Prop) (s : Parser σ × Message α) : Prop :=
  match s.1.state with
  | .bad => True
  | .headerName | .spaceBeforeHeaderValue => ∃ hs name, s.2.headers = hs ++ [⟨name, []⟩] ∧
      name ≠ [] ∧ (∀ c ∈ name, isToken c = true) ∧ s.1.lowcase = ⟨lower name, []⟩ ∧
        ∀ h ∈ hs, h.Kept stays
  | .headerValue => ∃ hs h, s.2.headers = hs ++ [h] ∧ h.Text ∧ (∀ h' ∈ hs, h'.Kept stays) ∧
      (s.1.lowcase = h.lower ∨ s.1.lowcase.name = [] ∧ h.Kept stays ∧ Extends stays)
  | .headerLws => s.2.headers ≠ [] ∧ (∀ h ∈ s.2.headers, h.Kept stays) ∧ s.1.lowcase = {} ∧
      Extends stays
  | _ => (∀ h ∈ s.2.headers, h.Kept stays) ∧ s.1.lowcase = {}

/-- `process_ready_header` takes out every header that does not stay, and the other states leave the
headers alone. -/
structure Grammar.Leaves (g : Grammar α σ) (stays : Header → Prop) : Prop where
  start_own : g.start.inHeader = false
  after_own : g.afterVersion.inHeader = false
  empty_headers : g.empty.headers = []
  own_headers : ∀ s m c, (g.consumeOwn s m c).2.headers = m.headers
  own_state : ∀ s m c, (g.consumeOwn s m c).1.inHeader = false
  after_line : g.afterVersion ≠ .headerLineStart
  own_line : ∀ s m c, (g.consumeOwn s m c).1 ≠ .headerLineStart
  start_line : g.start ≠ .headerLineStart
  ready : ∀ lowcase m m', g.processReadyHeader lowcase m = some m' →
    m'.headers = m.headers.dropLast ∨ m'.headers = m.headers ∧ ∀ h, h.lower = lowcase → stays h

/-- A grammar leaves no more headers than those that stay. -/
theorem Grammar.Leaves.mono {g : Grammar α σ} {stays stays' : Header → Prop} (hg : g.Leaves stays)
    (hle : ∀ h, stays h → stays' h) : g.Leaves stays' :=
  { hg with
    ready := fun lowcase m m' hready ↦
      (hg.ready lowcase m m' hready).imp_right fun hkept ↦
        ⟨hkept.1, fun h hlower ↦ hle h (hkept.2 h hlower)⟩ }

variable {stays : Header → Prop} {g : Grammar α σ} {p : Parser σ} {m : Message α}

theorem headersRead_of_kept (hstate : p.state.inHeader = false) (hlowcase : p.lowcase = {})
    (hkept : ∀ h ∈ m.headers, h.Kept stays) : HeadersRead stays (p, m) := by
  unfold HeadersRead
  split
  · trivial
  · next heq => rw [heq] at hstate; cases hstate
  · next heq => rw [heq] at hstate; cases hstate
  · next heq => rw [heq] at hstate; cases hstate
  · next heq => rw [heq] at hstate; cases hstate
  · exact ⟨hkept, hlowcase⟩

theorem headersRead_bad (m : Message α) : HeadersRead stays (p.goto .bad m) :=
  trivial

/-- A character of a value, after those that were read. -/
theorem headersRead_pushValue {hs : List Header} {h : Header} (hheaders : m.headers = hs ++ [h])
    (htext : h.Text) (hkept : ∀ h' ∈ hs, h'.Kept stays)
    (hlowcase : p.lowcase = h.lower ∨ p.lowcase.name = [] ∧ h.Kept stays ∧ Extends stays)
    {c : UInt8} (hc : isCtl c = false) : HeadersRead stays (p.pushValue m c) := by
  have htext' : ({ h with value := h.value ++ [c] } : Header).Text := by
    refine ⟨htext.name_ne, htext.name_token, fun c' hc' ↦ ?_⟩
    rcases List.mem_append.1 hc' with hc' | hc'
    · exact htext.value_text c' hc'
    · rw [List.mem_singleton.1 hc', hc]
  refine ⟨hs, { h with value := h.value ++ [c] }, ?_, htext', hkept, hlowcase.imp ?_ ?_⟩
  · rw [Parser.pushValue]
    dsimp only
    rw [hheaders, onBack_concat]
  · intro hlower
    change (⟨p.lowcase.name, p.lowcase.value ++ lower [c]⟩ : Header) = _
    rw [hlower, Header.lower, Header.lower, lower_append]
  · rintro ⟨hname, hold, hextends⟩
    exact ⟨hname, ⟨htext', hextends h [c] hold.stays⟩, hextends⟩

/-- One character; a blank at the start of a line is one only where values may be continued. -/
theorem HeadersRead.consume (hg : g.Leaves stays) (h : HeadersRead stays (p, m)) (c : UInt8)
    (hline : Extends stays ∨ ¬(p.state = .headerLineStart ∧ (c = space ∨ c = tab))) :
    HeadersRead stays (p.consume g m c) := by
  obtain ⟨state, lowcase⟩ := p
  -- the states outside of the headers
  have hquiet : ∀ (state' : ParserState σ) (m' : Message α), state'.inHeader = false →
      m'.headers = m.headers → (∀ h ∈ m.headers, h.Kept stays) ∧ lowcase = {} →
        HeadersRead stays ((⟨state, lowcase⟩ : Parser σ).goto state' m') := by
    rintro state' m' hstate' hheaders ⟨hkept, hlowcase⟩
    exact headersRead_of_kept hstate' hlowcase (fun h hmem ↦ hkept h (hheaders ▸ hmem))
  cases state with
  | own s => exact hquiet _ _ (hg.own_state s m c) (hg.own_headers s m c) h
  | httpVersionH =>
    simp only [Parser.consume]
    exact hquiet _ m (by split_ifs <;> rfl) rfl h
  | httpVersionT1 =>
    simp only [Parser.consume]
    exact hquiet _ m (by split_ifs <;> rfl) rfl h
  | httpVersionT2 =>
    simp only [Parser.consume]
    exact hquiet _ m (by split_ifs <;> rfl) rfl h
  | httpVersionP =>
    simp only [Parser.consume]
    exact hquiet _ m (by split_ifs <;> rfl) rfl h
  | httpVersionSlash =>
    simp only [Parser.consume]
    exact hquiet _ m (by split_ifs <;> rfl) rfl h
  | httpVersionMajorStart =>
    simp only [Parser.consume]
    split_ifs
    · exact hquiet _ _ rfl rfl h
    · exact headersRead_bad m
  | httpVersionMajor =>
    simp only [Parser.consume]
    split_ifs
    · exact hquiet _ _ rfl rfl h
    · exact hquiet _ _ rfl rfl h
    · exact headersRead_bad m
  | httpVersionMinorStart =>
    simp only [Parser.consume]
    split_ifs
    · exact hquiet _ _ rfl rfl h
    · exact headersRead_bad m
  | httpVersionMinor =>
    simp only [Parser.consume]
    split_ifs
    · exact hquiet _ _ hg.after_own rfl h
    · exact hquiet _ _ rfl rfl h
    · exact headersRead_bad m
  | expectingNewline1 =>
    simp only [Parser.consume]
    exact hquiet _ m (by split_ifs <;> rfl) rfl h
  | headerLineStart =>
    obtain ⟨hkept, hlowcase⟩ := h
    change lowcase = {} at hlowcase
    simp only [Parser.consume]
    split_ifs with hcr hblank htoken
    · exact hquiet _ _ rfl rfl ⟨hkept, hlowcase⟩
    · exact ⟨hblank.1, hkept, hlowcase, hline.resolve_right (not_not.2 ⟨rfl, hblank.2⟩)⟩
    · refine ⟨m.headers, [c], ?_, List.cons_ne_nil _ _, fun c' hc' ↦ ?_, ?_, hkept⟩
      · rw [Parser.pushName]
        dsimp only
        rw [onBack_concat]
        rfl
      · rw [List.mem_singleton.1 hc', htoken]
      · rw [hlowcase]
        rfl
    · exact headersRead_bad m
  | headerLws =>
    obtain ⟨hne, hkept, hlowcase, hextends⟩ := h
    change lowcase = {} at hlowcase
    simp only [Parser.consume]
    split_ifs with hcr hblank hctl
    · exact hquiet _ _ rfl rfl ⟨hkept, hlowcase⟩
    · exact ⟨hne, hkept, hlowcase, hextends⟩
    · exact headersRead_bad m
    · obtain ⟨hs, h, hheaders⟩ := (List.eq_nil_or_concat' m.headers).resolve_left hne
      rw [hheaders, List.forall_mem_append, List.forall_mem_singleton] at hkept
      exact headersRead_pushValue hheaders hkept.2.text hkept.1
        (Or.inr ⟨by rw [hlowcase], hkept.2, hextends⟩) (Bool.not_eq_true _ ▸ hctl)
  | headerName =>
    obtain ⟨hs, name, hheaders, hne, htokens, hlowcase, hkept⟩ := h
    simp only [Parser.consume]
    split_ifs with hcolon htoken
    · exact ⟨hs, name, hheaders, hne, htokens, hlowcase, hkept⟩
    · refine ⟨hs, name ++ [c], ?_, by simp, fun c' hc' ↦ ?_, ?_, hkept⟩
      · rw [Parser.pushName]
        dsimp only
        rw [hheaders, onBack_concat]
      · rcases List.mem_append.1 hc' with hc' | hc'
        · exact htokens c' hc'
        · rw [List.mem_singleton.1 hc', htoken]
      · change lowcase = _ at hlowcase
        rw [Parser.pushName, hlowcase, lower_append]
        rfl
    · exact headersRead_bad m
  | spaceBeforeHeaderValue =>
    obtain ⟨hs, name, hheaders, hne, htokens, hlowcase, hkept⟩ := h
    simp only [Parser.consume]
    split_ifs with hspace
    · refine ⟨hs, ⟨name, []⟩, hheaders, ⟨hne, htokens, fun c hc ↦ absurd hc List.not_mem_nil⟩,
        hkept,
        Or.inl hlowcase⟩
    · exact headersRead_bad m
  | headerValue =>
    obtain ⟨hs, h, hheaders, htext, hkept, hlowcase⟩ := h
    change lowcase = _ ∨ lowcase.name = [] ∧ _ at hlowcase
    simp only [Parser.consume]
    split_ifs with hcr hctl
    · cases hready : g.processReadyHeader lowcase m with
      | none => exact headersRead_bad m
      | some m' =>
        refine headersRead_of_kept rfl rfl ?_
        rcases hg.ready lowcase m m' hready with hdropped | ⟨hsame, hstays⟩
        · rw [hdropped, hheaders, List.dropLast_concat]
          exact hkept
        · rw [hsame, hheaders, List.forall_mem_append, List.forall_mem_singleton]
          refine ⟨hkept, ?_⟩
          rcases hlowcase with hlower | ⟨-, hold, -⟩
          · exact ⟨htext, hstays h hlower.symm⟩
          · exact hold
    · exact headersRead_bad m
    · exact headersRead_pushValue hheaders htext hkept hlowcase (Bool.not_eq_true _ ▸ hctl)
  | expectingNewline2 =>
    simp only [Parser.consume]
    exact hquiet _ m (by split_ifs <;> rfl) rfl h
  | expectingNewline3 =>
    simp only [Parser.consume]
    exact hquiet _ m (by split_ifs <;> rfl) rfl h
  | good => exact headersRead_bad m
  | bad => exact headersRead_bad m

/-- A line feed stands before every line. -/
theorem consume_headerLineStart (hg : g.Leaves stays) (c : UInt8)
    (h : (p.consume g m c).1.state = .headerLineStart) : c = lf := by
  obtain ⟨state, lowcase⟩ := p
  cases state with
  | own s => exact absurd h (hg.own_line s m c)
  | httpVersionMinor =>
    simp only [Parser.consume] at h
    split_ifs at h
    · exact absurd h hg.after_line
    · cases h
    · cases h
  | expectingNewline1 | expectingNewline2 =>
    by_contra hne
    simp only [Parser.consume, if_neg hne] at h
    cases h
  | headerValue =>
    simp only [Parser.consume] at h
    split_ifs at h
    · cases hready : g.processReadyHeader lowcase m <;> rw [hready] at h <;> cases h
    · cases h
    · cases h
  | _ =>
    simp only [Parser.consume, Parser.goto] at h
    try split_ifs at h
    all_goals cases h

/-- The headers after any bytes. -/
theorem headersRead_scan (hg : g.Leaves stays) (hstart : g.start ≠ .good ∧ g.start ≠ .bad)
    {xs rest : Bytes} {s : Parser σ × Message α} (hxs : Extends stays ∨ ¬Continued xs)
    (hscan : (g.scanner hstart).scan (g.scanner hstart).start xs = (s, rest)) :
    HeadersRead stays s := by
  have hfrom : ∀ (last : UInt8) (s : Parser σ × Message α), HeadersRead stays s →
      (s.1.state = .headerLineStart → last = lf) → Extends stays ∨ ¬Continued (last :: xs) →
      HeadersRead stays ((g.scanner hstart).scan s xs).1 := by
    clear hxs hscan
    induction xs with
    | nil => exact fun _ s hs _ _ ↦ hs
    | cons x xs ih =>
      intro last s hs hlast hxs
      cases hstops : (g.scanner hstart).stops s with
      | true =>
        rw [Scanner.scan_stops hstops]
        exact hs
      | false =>
        rw [Scanner.scan_cons hstops, Grammar.step_scanner]
        refine ih x _ (HeadersRead.consume hg (p := s.1) (m := s.2) hs x ?_) ?_ ?_
        · refine hxs.imp_right fun hnot hblank ↦ hnot ⟨x, hblank.2, ?_⟩
          rw [hlast hblank.1]
          exact (List.prefix_append [lf, x] xs).isInfix
        · exact consume_headerLineStart hg (p := s.1) (m := s.2) x
        · exact hxs.imp_right fun hnot ⟨c, hc, hinfix⟩ ↦
            hnot ⟨c, hc, hinfix.trans (List.suffix_cons _ _).isInfix⟩
  -- no line starts behind the zero put before the text
  have hs : ((g.scanner hstart).scan (g.scanner hstart).start xs).1 = s := congrArg Prod.fst hscan
  rw [← hs]
  refine hfrom 0 _ (headersRead_of_kept hg.start_own rfl fun h hmem ↦ ?_)
    (fun hline ↦ absurd hline hg.start_line) (hxs.imp_right fun hnot ⟨c, hc, hinfix⟩ ↦ ?_)
  · change h ∈ g.empty.headers at hmem
    rw [hg.empty_headers] at hmem
    exact absurd hmem List.not_mem_nil
  · refine hnot ⟨c, hc, (List.infix_cons_iff.1 hinfix).resolve_left fun hprefix ↦ ?_⟩
    have hzero := (List.cons_prefix_cons.1 hprefix).1
    cases hzero

/-- There is a last header wherever one is changed or taken out. -/
theorem HeadersRead.headers_ne_nil {s : Parser σ × Message α} (h : HeadersRead stays s)
    (hstate : s.1.state.inHeader = true) : s.2.headers ≠ [] := by
  unfold HeadersRead at h
  split at h
  · next heq =>
    rw [heq] at hstate
    cases hstate
  · obtain ⟨hs, name, hheaders, -⟩ := h
    rw [hheaders]
    exact List.append_ne_nil_of_right_ne_nil _ (List.cons_ne_nil _ _)
  · obtain ⟨hs, name, hheaders, -⟩ := h
    rw [hheaders]
    exact List.append_ne_nil_of_right_ne_nil _ (List.cons_ne_nil _ _)
  · obtain ⟨hs, last, hheaders, -⟩ := h
    rw [hheaders]
    exact List.append_ne_nil_of_right_ne_nil _ (List.cons_ne_nil _ _)
  · exact h.1
  · next hlws hname hspace hvalue _ _ =>
    revert hstate
    unfold ParserState.inHeader
    split
    · contradiction
    · contradiction
    · contradiction
    · contradiction
    · exact fun h' ↦ by cases h'

theorem HeadersRead.kept_of_good {s : Parser σ × Message α} (h : HeadersRead stays s)
    (hgood : s.1.state = .good) : ∀ h ∈ s.2.headers, h.Kept stays := by
  unfold HeadersRead at h
  rw [hgood] at h
  exact h.1

end Headers

/-! ## The two parsers -/

theorem Grammar.takeConnection_headers {α : Type} {value : Bytes} {m m' : Message α}
    (h : Grammar.takeConnection value m = some m') : m'.headers = m.headers.dropLast := by
  unfold Grammar.takeConnection at h
  split_ifs at h
  · rw [← Option.some.inj h]
  · rw [← Option.some.inj h]

theorem Grammar.takeContentLength_headers {α : Type} {cast : Bytes → Option ℕ} {value : Bytes}
    {m m' : Message α} (h : Grammar.takeContentLength cast value m = some m') :
    m'.headers = m.headers.dropLast := by
  unfold Grammar.takeContentLength at h
  obtain ⟨n, -, rfl⟩ := Option.map_eq_some_iff.1 h
  rfl

namespace RequestParser

/-- The names that do not stay in the list of a request, whatever their values. -/
def taken : List Bytes := [text "content-length", text "host", text "connection"]

theorem not_mem_taken {h : Header} (hnot : ¬TakesOut h) : lower h.name ∉ taken := by
  simp only [TakesOut, not_or] at hnot
  simp only [taken, List.mem_cons, List.not_mem_nil, or_false, not_or]
  exact ⟨hnot.1, hnot.2.1, hnot.2.2.1⟩

theorem extends_taken : Extends fun h ↦ lower h.name ∉ taken := fun _ _ hnot ↦ hnot

theorem grammar_leaves (cast : Bytes → Option ℕ) : (grammar cast).Leaves (¬TakesOut ·) where
  start_own := rfl
  after_own := rfl
  empty_headers := rfl
  own_headers s m c := by
    cases s <;> simp only [grammar, consumeOwn] <;> split_ifs <;> rfl
  own_state s m c := by
    cases s <;> simp only [grammar, consumeOwn] <;> split_ifs <;> rfl
  after_line := by rintro ⟨⟩
  own_line s m c := by
    cases s <;> simp only [grammar, consumeOwn] <;> split_ifs <;> rintro ⟨⟩
  start_line := by rintro ⟨⟩
  ready lowcase m m' h := by
    change processReadyHeader cast lowcase m = some m' at h
    unfold processReadyHeader at h
    by_cases hlength : lowcase.name = text "content-length"
    · rw [if_pos hlength] at h
      exact .inl (Grammar.takeContentLength_headers h)
    rw [if_neg hlength] at h
    by_cases hhost : lowcase.name = text "host"
    · rw [if_pos hhost] at h
      exact .inl (by rw [← Option.some.inj h])
    rw [if_neg hhost] at h
    by_cases hconnection : lowcase.name = text "connection"
    · rw [if_pos hconnection] at h
      exact .inl (Grammar.takeConnection_headers h)
    rw [if_neg hconnection] at h
    have hstays : ¬(lowcase.name = text "authorization" ∧ text "basic" <+: lowcase.value) →
        ∀ h, h.lower = lowcase → ¬TakesOut h := by
      rintro hauthorization h rfl htakes
      rcases htakes with h' | h' | h' | h'
      · exact hlength h'
      · exact hhost h'
      · exact hconnection h'
      · exact hauthorization h'
    by_cases hauthorization : lowcase.name = text "authorization"
    · rw [if_pos hauthorization] at h
      by_cases hbasic : text "basic" <+: lowcase.value
      · rw [if_neg (not_not.2 hbasic)] at h
        exact .inl (by rw [← Option.some.inj h])
      · rw [if_pos hbasic] at h
        exact .inr ⟨by rw [← Option.some.inj h], hstays fun hboth ↦ hbasic hboth.2⟩
    · rw [if_neg hauthorization] at h
      exact .inr ⟨by rw [← Option.some.inj h], hstays fun hboth ↦ hauthorization hboth.1⟩

/-- The first line, as far as it is read. -/
structure FirstLine (s : Parser RequestState × Request) : Prop where
  method_token : ∀ c ∈ s.2.own.method, isToken c = true
  uri_text : ∀ c ∈ s.2.own.uri, c ≠ space ∧ isCtl c = false
  method_ne : s.1.state ≠ .own .methodStart → s.1.state ≠ .bad → s.2.own.method ≠ []

theorem processReadyHeader_firstLine {cast : Bytes → Option ℕ} {lowcase : Header} {r r' : Request}
    (h : processReadyHeader cast lowcase r = some r') :
    r'.own.method = r.own.method ∧ r'.own.uri = r.own.uri := by
  unfold processReadyHeader Grammar.takeContentLength Grammar.takeConnection at h
  split_ifs at h
  · obtain ⟨n, -, rfl⟩ := Option.map_eq_some_iff.1 h
    exact ⟨rfl, rfl⟩
  all_goals
    rw [← Option.some.inj h]
    exact ⟨rfl, rfl⟩

/-- The first line is the same. -/
structure KeepsFirstLine (r : Request) (s : Parser RequestState × Request) : Prop where
  method : s.2.own.method = r.own.method
  uri : s.2.own.uri = r.own.uri

/-- The characters behind the first line do not change it. -/
theorem consume_keepsFirstLine {cast : Bytes → Option ℕ} {p : Parser RequestState} {r : Request}
    (hstate : ∀ s, p.state ≠ .own s) (c : UInt8) :
    KeepsFirstLine r (p.consume (grammar cast) r c) := by
  obtain ⟨state, lowcase⟩ := p
  cases state with
  | own s => exact absurd rfl (hstate s)
  | headerValue =>
    simp only [Parser.consume]
    split_ifs
    · cases hready : (grammar cast).processReadyHeader lowcase r with
      | none => exact ⟨rfl, rfl⟩
      | some r' =>
        obtain ⟨hmethod, huri⟩ := processReadyHeader_firstLine hready
        exact ⟨hmethod, huri⟩
    · exact ⟨rfl, rfl⟩
    · exact ⟨rfl, rfl⟩
  | _ =>
    simp only [Parser.consume]
    constructor <;> (try split_ifs) <;> rfl

theorem FirstLine.consume {cast : Bytes → Option ℕ} {p : Parser RequestState} {r : Request}
    (h : FirstLine (p, r)) (c : UInt8) : FirstLine (p.consume (grammar cast) r c) := by
  obtain ⟨htoken, huri, hne⟩ := h
  dsimp only at htoken huri hne
  by_cases hstate : ∀ s, p.state ≠ .own s
  · have hkeeps : KeepsFirstLine r (p.consume (grammar cast) r c) := consume_keepsFirstLine hstate c
    obtain ⟨hmethod, huri'⟩ := hkeeps
    refine ⟨hmethod ▸ htoken, huri' ▸ huri, fun _ hbad ↦ ?_⟩
    rw [hmethod]
    refine hne (hstate _) fun heq ↦ hbad ?_
    unfold Parser.consume
    rw [heq]
    rfl
  have hbad : FirstLine (p.goto .bad r) := ⟨htoken, huri, fun _ hnot ↦ absurd rfl hnot⟩
  have hpush : isToken c = true → FirstLine (p.goto (.own .method)
      { r with own := { r.own with method := r.own.method ++ [c] } }) := by
    refine fun hc ↦ ⟨fun c' hc' ↦ ?_, huri, fun _ _ ↦ ?_⟩
    · rcases List.mem_append.1 hc' with hc' | hc'
      · exact htoken c' hc'
      · rw [List.mem_singleton.1 hc', hc]
    · exact List.append_ne_nil_of_right_ne_nil _ (List.cons_ne_nil _ _)
  simp only [not_forall, not_not] at hstate
  obtain ⟨s, hs⟩ := hstate
  have hconsume : p.consume (grammar cast) r c =
      p.goto (consumeOwn s r c).1 (consumeOwn s r c).2 := by
    unfold Parser.consume
    rw [hs]
    rfl
  rw [hconsume]
  cases s with
  | methodStart =>
    by_cases hc : isToken c = true
    · simp only [consumeOwn, hc, if_true]
      exact hpush hc
    · simp only [consumeOwn, hc]
      exact hbad
  | method =>
    have hmethod : r.own.method ≠ [] := hne (by rw [hs]; rintro ⟨⟩) (by rw [hs]; rintro ⟨⟩)
    by_cases hspace : c = space
    · simp only [consumeOwn, hspace, if_true]
      exact ⟨htoken, huri, fun _ _ ↦ hmethod⟩
    by_cases hc : isToken c = true
    · simp only [consumeOwn, if_neg hspace, hc, if_true]
      exact hpush hc
    · simp only [consumeOwn, if_neg hspace, hc]
      exact hbad
  | uri =>
    have hmethod : r.own.method ≠ [] := hne (by rw [hs]; rintro ⟨⟩) (by rw [hs]; rintro ⟨⟩)
    by_cases hspace : c = space
    · simp only [consumeOwn, hspace, if_true]
      exact ⟨htoken, huri, fun _ _ ↦ hmethod⟩
    by_cases hc : isCtl c = true
    · simp only [consumeOwn, if_neg hspace, hc, if_true]
      exact hbad
    · simp only [consumeOwn, if_neg hspace, hc]
      refine ⟨htoken, fun c' hc' ↦ ?_, fun _ _ ↦ hmethod⟩
      rcases List.mem_append.1 hc' with hc' | hc'
      · exact huri c' hc'
      · rw [List.mem_singleton.1 hc']
        exact ⟨hspace, Bool.not_eq_true _ ▸ hc⟩

theorem firstLine_scan (cast : Bytes → Option ℕ) (xs : Bytes) :
    FirstLine ((scanner cast).scan (scanner cast).start xs).1 := by
  have hfrom : ∀ s : Parser RequestState × Request, FirstLine s →
      FirstLine ((scanner cast).scan s xs).1 := by
    induction xs with
    | nil => exact fun s hs ↦ hs
    | cons x xs ih =>
      intro s hs
      cases hstops : (scanner cast).stops s with
      | true =>
        rw [Scanner.scan_stops hstops]
        exact hs
      | false =>
        rw [Scanner.scan_cons hstops]
        exact ih _ (FirstLine.consume (p := s.1) (r := s.2) hs x)
  exact hfrom _ ⟨fun c hc ↦ absurd hc List.not_mem_nil, fun c hc ↦ absurd hc List.not_mem_nil,
    fun hnot ↦ absurd rfl hnot⟩

end RequestParser

namespace ResponseParser

/-- Only names matter. -/
theorem extends_takesOut : Extends (¬TakesOut ·) := fun _ _ hnot ↦ hnot

theorem grammar_leaves (cast : Bytes → Option ℕ) : (grammar cast).Leaves (¬TakesOut ·) where
  start_own := rfl
  after_own := rfl
  empty_headers := rfl
  own_headers s m c := by
    cases s <;> simp only [grammar, consumeOwn] <;> split_ifs <;> rfl
  own_state s m c := by
    cases s <;> simp only [grammar, consumeOwn] <;> split_ifs <;> rfl
  after_line := by rintro ⟨⟩
  own_line s m c := by
    cases s <;> simp only [grammar, consumeOwn] <;> split_ifs <;> rintro ⟨⟩
  start_line := by rintro ⟨⟩
  ready lowcase m m' h := by
    change processReadyHeader cast lowcase m = some m' at h
    unfold processReadyHeader at h
    by_cases hlength : lowcase.name = text "content-length"
    · rw [if_pos hlength] at h
      exact .inl (Grammar.takeContentLength_headers h)
    rw [if_neg hlength] at h
    by_cases hconnection : lowcase.name = text "connection"
    · rw [if_pos hconnection] at h
      exact .inl (Grammar.takeConnection_headers h)
    rw [if_neg hconnection] at h
    refine .inr ⟨by rw [← Option.some.inj h], ?_⟩
    rintro h rfl (h' | h')
    · exact hlength h'
    · exact hconnection h'

end ResponseParser

/-- Whatever bytes a parser reads: there is a header wherever the last one is changed or taken out;
and what is accepted has a method of tokens, an address without spaces and control characters, and
headers with names of tokens and values without control characters, of which none is a field: only a
basic authorization may be left, and only where a line continues another one. -/
theorem accepted_text (cast : Bytes → Option ℕ) (read rest : Bytes) :
    (∀ s, (RequestParser.scanner cast).scan (RequestParser.scanner cast).start (read ++ rest) =
        (s, rest) →
      (s.1.state.inHeader = true → s.2.headers ≠ []) ∧
      (s.1.state = .good → s.2.own.method ≠ [] ∧ (∀ c ∈ s.2.own.method, isToken c = true) ∧
        (∀ c ∈ s.2.own.uri, c ≠ space ∧ isCtl c = false) ∧
        ∀ h ∈ s.2.headers, h.Text ∧ lower h.name ∉ RequestParser.taken ∧
          (¬RequestParser.TakesOut h ∨ Continued read))) ∧
    ∀ s, (ResponseParser.scanner cast).scan (ResponseParser.scanner cast).start (read ++ rest) =
        (s, rest) →
      (s.1.state.inHeader = true → s.2.headers ≠ []) ∧
      (s.1.state = .good → ∀ h ∈ s.2.headers, h.Text ∧ ¬ResponseParser.TakesOut h) := by
  constructor
  · intro s hscan
    replace hscan := Scanner.scan_read hscan
    have hleaves := RequestParser.grammar_leaves cast
    have hread := headersRead_scan (hleaves.mono fun _ ↦ RequestParser.not_mem_taken) _
      (.inl RequestParser.extends_taken) hscan
    have hfirst := RequestParser.firstLine_scan cast read
    rw [hscan] at hfirst
    refine ⟨hread.headers_ne_nil, fun hgood ↦ ⟨hfirst.method_ne ?_ ?_, hfirst.method_token,
      hfirst.uri_text, fun h hmem ↦ ?_⟩⟩
    · rw [hgood]
      rintro ⟨⟩
    · rw [hgood]
      rintro ⟨⟩
    · have hkept := hread.kept_of_good hgood h hmem
      refine ⟨hkept.text, hkept.stays, or_iff_not_imp_right.2 fun hnot ↦ ?_⟩
      exact ((headersRead_scan hleaves _ (.inr hnot) hscan).kept_of_good hgood h hmem).stays
  · intro s hscan
    replace hscan := Scanner.scan_read hscan
    have hread := headersRead_scan (ResponseParser.grammar_leaves cast) _
      (.inl ResponseParser.extends_takesOut) hscan
    exact ⟨hread.headers_ne_nil, fun hgood h hmem ↦
      ⟨(hread.kept_of_good hgood h hmem).text, (hread.kept_of_good hgood h hmem).stays⟩⟩

/-- An authorization on a line that continues the name alone stays in the list. -/
example : requestsOf digitsCast
      (text "GET / HTTP/1.1\r\nAuthorization: \r\n Basic abc\r\n\r\n") =
    [⟨{ own := { method := text "GET", uri := text "/" }
        httpVersionMajor := 1
        httpVersionMinor := 1
        headers := [⟨text "Authorization", text "Basic abc"⟩] }, []⟩] := by
  decide +kernel

end Naza.Http
