import Naza.Http.Types

/-!
# What is written is read

A request or a response is read as its text tells it, with nothing of what follows it.
-/

open Lib

namespace Naza.Http

open Json (ascii text decimal isDigit decimalValue)

/-! ## Characters -/

theorem ne_of_isToken {c d : UInt8} (hc : isToken c = true) (hd : isToken d = false) : c ≠ d := by
  rintro rfl
  rw [hc] at hd
  cases hd

theorem ne_of_isCtl {c d : UInt8} (hc : isCtl c = false) (hd : isCtl d = true) : c ≠ d := by
  rintro rfl
  rw [hc] at hd
  cases hd

theorem decimalValue_concat (digits : Bytes) (c : UInt8) :
    decimalValue (digits ++ [c]) = decimalValue digits * 10 + digit c := by
  rw [decimalValue, List.foldl_append]
  rfl

theorem onBack_concat (f : Header → Header) (hs : List Header) (h : Header) :
    onBack f (hs ++ [h]) = hs ++ [f h] := by
  rw [onBack, List.dropLast_concat, List.getLast?_concat]
  rfl

theorem lower_append (s t : Bytes) : lower (s ++ t) = lower s ++ lower t := List.map_append

theorem headerLines_append (hs hs' : List Header) :
    headerLines (hs ++ hs') = headerLines hs ++ headerLines hs' := List.flatMap_append

/-! ## The version and the headers -/

/-- A header that can be written in a line. -/
structure Header.Text (h : Header) : Prop where
  name_ne : h.name ≠ []
  name_token : ∀ c ∈ h.name, isToken c = true
  value_text : ∀ c ∈ h.value, isCtl c = false

def Header.lower (h : Header) : Header := ⟨Http.lower h.name, Http.lower h.value⟩

section Common

variable {α σ : Type} {g : Grammar α σ} {hstart : g.start ≠ .good ∧ g.start ≠ .bad}
  {m m' : Message α}

/-- A number, digit by digit. -/
theorem passes_decimal {s : Parser σ × Message α} {F : ℕ → Parser σ × Message α}
    (hgoes : (g.scanner hstart).stops s = false)
    (hgoes' : ∀ n, (g.scanner hstart).stops (F n) = false)
    (hfirst : ∀ c, isDigit c = true → (g.scanner hstart).step s c = F (digit c))
    (hnext : ∀ n c, isDigit c = true → (g.scanner hstart).step (F n) c = F (n * 10 + digit c))
    (n : ℕ) : (g.scanner hstart).Passes s (decimal n) (F n) := by
  have hdigits := Json.isDigit_decimal n
  have hvalue := Json.decimalValue_decimal n
  cases htext : decimal n with
  | nil => exact absurd htext (Json.decimal_ne_nil n)
  | cons c cs =>
    rw [htext] at hdigits hvalue
    rw [List.forall_mem_cons] at hdigits
    have hone : F (digit c) = F (decimalValue [c]) := by
      rw [decimalValue, List.foldl_cons, List.foldl_nil, Nat.zero_mul, Nat.zero_add]
      rfl
    refine .cons hgoes ?_
    rw [hfirst c hdigits.1, hone, ← hvalue]
    exact .loop (F := fun l ↦ F (decimalValue l)) (fun l ↦ hgoes' _)
      (fun l x hx ↦ by rw [hnext _ _ hx, decimalValue_concat]) [c] hdigits.2

/-- The version, and what ends it. -/
theorem passes_version {lowcase : Header} (hmajor : m.httpVersionMajor = 0)
    (hminor : m.httpVersionMinor = 0) (hend : isDigit g.versionEnd = false)
    {v : Message α} :
    (g.scanner hstart).Passes (⟨.httpVersionH, lowcase⟩, m) (v.versionText ++ [g.versionEnd])
      (⟨g.afterVersion, lowcase⟩, { m with
        httpVersionMajor := v.httpVersionMajor
        httpVersionMinor := v.httpVersionMinor
        keepAlive := v.httpVersionMajor = 1 ∧ v.httpVersionMinor = 1 }) := by
  have hliteral : (g.scanner hstart).Passes (⟨.httpVersionH, lowcase⟩, m) (text "HTTP/")
      (⟨.httpVersionMajorStart, lowcase⟩, m) :=
    .cons rfl (.cons rfl (.cons rfl (.cons rfl (.single rfl rfl))))
  have hmajors : (g.scanner hstart).Passes (⟨.httpVersionMajorStart, lowcase⟩, m)
      (decimal v.httpVersionMajor)
      (⟨.httpVersionMajor, lowcase⟩, { m with httpVersionMajor := v.httpVersionMajor }) := by
    refine passes_decimal
      (F := fun n ↦ (⟨.httpVersionMajor, lowcase⟩, { m with httpVersionMajor := n })) rfl
      (fun _ ↦ rfl) (fun c hc ↦ ?_) (fun n c hc ↦ ?_) _
    · rw [Grammar.step_scanner]
      simp only [Parser.consume, hc, if_true, Parser.pushMajor, Parser.goto, hmajor, Nat.zero_mul,
        Nat.zero_add]
    · have hne : c ≠ ascii '.' := by
        rintro rfl
        cases hc
      rw [Grammar.step_scanner]
      simp only [Parser.consume, hc, if_true, if_neg hne, Parser.pushMajor, Parser.goto]
  have hminors : (g.scanner hstart).Passes
      (⟨.httpVersionMinorStart, lowcase⟩, { m with httpVersionMajor := v.httpVersionMajor })
      (decimal v.httpVersionMinor)
      (⟨.httpVersionMinor, lowcase⟩, { m with
        httpVersionMajor := v.httpVersionMajor, httpVersionMinor := v.httpVersionMinor }) := by
    refine passes_decimal (F := fun n ↦ (⟨.httpVersionMinor, lowcase⟩, { m with
      httpVersionMajor := v.httpVersionMajor, httpVersionMinor := n })) rfl
      (fun _ ↦ rfl) (fun c hc ↦ ?_) (fun n c hc ↦ ?_) _
    · rw [Grammar.step_scanner]
      simp only [Parser.consume, hc, if_true, Parser.pushMinor, Parser.goto, hminor, Nat.zero_mul,
        Nat.zero_add]
    · have hne : c ≠ g.versionEnd := by
        rintro rfl
        rw [hend] at hc
        cases hc
      rw [Grammar.step_scanner]
      simp only [Parser.consume, hc, if_true, if_neg hne, Parser.pushMinor, Parser.goto]
  have hdot : (g.scanner hstart).Passes
      (⟨.httpVersionMajor, lowcase⟩, { m with httpVersionMajor := v.httpVersionMajor })
      (ascii '.' :: decimal v.httpVersionMinor)
      (⟨.httpVersionMinor, lowcase⟩, { m with
        httpVersionMajor := v.httpVersionMajor, httpVersionMinor := v.httpVersionMinor }) :=
    .cons rfl hminors
  refine ((hliteral.append (hmajors.append hdot)).append (.single rfl ?_))
  rw [Grammar.step_scanner]
  simp only [Parser.consume, if_true, Parser.goto]

/-- The line of a header, and what is made of the header. -/
theorem passes_headerLine {h : Header} (htext : h.Text)
    (hready : g.processReadyHeader h.lower { m with headers := m.headers ++ [h] } = some m') :
    (g.scanner hstart).Passes (⟨.headerLineStart, {}⟩, m) (headerLine h)
      (⟨.headerLineStart, {}⟩, m') := by
  obtain ⟨name, value⟩ := h
  obtain ⟨hne, htoken, hvalue⟩ := htext
  dsimp only at hne htoken hvalue
  -- the name, from its first character on
  have hname : (g.scanner hstart).Passes (⟨.headerLineStart, {}⟩, m) name
      (⟨.headerName, ⟨lower name, []⟩⟩, { m with headers := m.headers ++ [⟨name, []⟩] }) := by
    cases name with
    | nil => exact absurd rfl hne
    | cons c cs =>
      rw [List.forall_mem_cons] at htoken
      have hcr : c ≠ cr := ne_of_isToken htoken.1 (by decide)
      have hblank : ¬ (m.headers ≠ [] ∧ (c = space ∨ c = tab)) := by
        rintro ⟨-, h | h⟩
        · exact ne_of_isToken htoken.1 (by decide) h
        · exact ne_of_isToken htoken.1 (by decide) h
      have hfirst : (g.scanner hstart).step (⟨.headerLineStart, {}⟩, m) c =
          (⟨.headerName, ⟨lower [c], []⟩⟩, { m with headers := m.headers ++ [⟨[c], []⟩] }) := by
        rw [Grammar.step_scanner]
        simp only [Parser.consume, if_neg hcr, if_neg hblank, htoken.1, if_true, Parser.pushName,
          onBack_concat]
        rfl
      refine .cons rfl ?_
      rw [hfirst]
      refine Scanner.Passes.loop (F := fun l ↦ ((⟨.headerName, ⟨lower l, []⟩⟩,
        { m with headers := m.headers ++ [⟨l, []⟩] }) : Parser σ × Message α)) (fun _ ↦ rfl)
        (fun l x hx ↦ ?_) [c] htoken.2
      have hcolon : x ≠ ascii ':' := ne_of_isToken hx (by decide)
      rw [Grammar.step_scanner]
      simp only [Parser.consume, if_neg hcolon, hx, if_true, Parser.pushName, onBack_concat,
        lower_append]
      rfl
  have hcolon : (g.scanner hstart).Passes
      (⟨.headerName, ⟨lower name, []⟩⟩, { m with headers := m.headers ++ [⟨name, []⟩] })
      (text ": ")
      (⟨.headerValue, ⟨lower name, []⟩⟩, { m with headers := m.headers ++ [⟨name, []⟩] }) :=
    .cons rfl (.single rfl rfl)
  have hvalues : (g.scanner hstart).Passes
      (⟨.headerValue, ⟨lower name, []⟩⟩, { m with headers := m.headers ++ [⟨name, []⟩] }) value
      (⟨.headerValue, ⟨lower name, lower value⟩⟩,
        { m with headers := m.headers ++ [⟨name, value⟩] }) := by
    refine Scanner.Passes.loop (F := fun l ↦ ((⟨.headerValue, ⟨lower name, lower l⟩⟩,
      { m with headers := m.headers ++ [⟨name, l⟩] }) : Parser σ × Message α)) (fun _ ↦ rfl)
      (fun l x hx ↦ ?_) [] hvalue
    have hcr : x ≠ cr := ne_of_isCtl hx (by decide)
    rw [Grammar.step_scanner]
    simp only [Parser.consume, if_neg hcr, hx, Bool.false_eq_true, if_false, Parser.pushValue,
      onBack_concat, lower_append]
    rfl
  have hend : (g.scanner hstart).Passes (⟨.headerValue, ⟨lower name, lower value⟩⟩,
      { m with headers := m.headers ++ [⟨name, value⟩] }) crlf (⟨.headerLineStart, {}⟩, m') := by
    have hstep : (g.scanner hstart).step (⟨.headerValue, ⟨lower name, lower value⟩⟩,
        { m with headers := m.headers ++ [⟨name, value⟩] }) cr =
        (⟨.expectingNewline2, {}⟩, m') := by
      rw [Grammar.step_scanner]
      change g.processReadyHeader ⟨lower name, lower value⟩ _ = _ at hready
      simp only [Parser.consume, if_true, hready]
    refine .cons rfl ?_
    rw [hstep]
    exact .single rfl rfl
  exact hname.append (hcolon.append (hvalues.append hend))

/-- Headers of which none is taken out. -/
theorem passes_headerLines {hs : List Header} (htext : ∀ h ∈ hs, h.Text)
    (hkeeps : ∀ h ∈ hs, ∀ m : Message α, g.processReadyHeader h.lower m = some m) :
    (g.scanner hstart).Passes (⟨.headerLineStart, {}⟩, m) (headerLines hs)
      (⟨.headerLineStart, {}⟩, { m with headers := m.headers ++ hs }) := by
  induction hs generalizing m with
  | nil =>
    rw [List.append_nil]
    exact .refl _ _
  | cons h hs ih =>
    rw [List.forall_mem_cons] at htext hkeeps
    have hline : (g.scanner hstart).Passes (⟨.headerLineStart, {}⟩, m) (headerLine h)
        (⟨.headerLineStart, {}⟩, { m with headers := m.headers ++ [h] }) :=
      passes_headerLine htext.1 (hkeeps.1 _)
    have hrest := ih (m := { m with headers := m.headers ++ [h] }) htext.2 hkeeps.2
    rw [List.append_assoc] at hrest
    exact hline.append hrest

/-- One header, or none. -/
theorem passes_optional {p : Prop} [Decidable p] {h : Header} (htext : h.Text)
    (hready : p → g.processReadyHeader h.lower { m with headers := m.headers ++ [h] } = some m')
    (hnone : ¬ p → m' = m) :
    (g.scanner hstart).Passes (⟨.headerLineStart, {}⟩, m)
      (headerLines (if p then [h] else [])) (⟨.headerLineStart, {}⟩, m') := by
  by_cases hp : p
  · rw [if_pos hp]
    change (g.scanner hstart).Passes _ (headerLine h ++ []) _
    rw [List.append_nil]
    exact passes_headerLine htext (hready hp)
  · rw [if_neg hp, hnone hp]
    exact .refl _ _

/-- The empty line ends the message. -/
theorem passes_end : (g.scanner hstart).Passes (⟨.headerLineStart, {}⟩, m) crlf (⟨.good, {}⟩, m) :=
  .cons rfl (.single rfl rfl)

end Common

/-! ## What both parsers take out -/

/-- What is relied on of `lexical_cast` to `size_t`. -/
def CastsDecimals (cast : Bytes → Option ℕ) : Prop := ∀ n < 2 ^ 64, cast (decimal n) = some n

/-- What the version and the header that asks to keep a connection tell of `keep_alive`; no header
asks to close one. -/
def Message.keepAliveTold {α : Type} (m : Message α) : Bool :=
  m.httpVersionMajor = 1 ∧ (m.httpVersionMinor = 1 ∨ m.httpVersionMinor = 0 ∧ m.keepAlive = true)

section Taken

variable {α σ : Type} {g : Grammar α σ} {hstart : g.start ≠ .good ∧ g.start ≠ .bad}
  {m v : Message α}

/-- The names that are written can be read, and digits are what they are in lower case. -/
theorem written_text :
    (∀ name ∈ [text "Connection", text "Content-Length", text "Host", text "Authorization"],
      name ≠ [] ∧ ∀ c ∈ name, isToken c = true) ∧
    (∀ c ∈ text "keep-alive", isCtl c = false) ∧ (∀ c ∈ text "Basic ", isCtl c = false) ∧
    ∀ c : UInt8, isDigit c = true → isCtl c = false ∧ tolower c = c := by
  refine ⟨?_, ?_, ?_, fun c hc ↦ ?_⟩
  · simp [text, ascii, isToken, isTspecial, isCtl, isChar]
  · simp [text, ascii, isCtl]
  · simp [text, ascii, isCtl]
  · simp only [isDigit, Bool.and_eq_true, decide_eq_true_eq] at hc
    simp only [isCtl, tolower, Bool.or_eq_false_iff, decide_eq_false_iff_not, ← UInt8.toNat_inj,
      UInt8.le_iff_toNat_le, UInt8.reduceToNat]
    refine ⟨by omega, ?_⟩
    rw [if_neg (by omega)]

theorem connection_text : (⟨text "Connection", text "keep-alive"⟩ : Header).Text := by
  obtain ⟨hnames, hvalue, -⟩ := written_text
  have hname := hnames (text "Connection") (by simp)
  exact ⟨hname.1, hname.2, hvalue⟩

theorem length_text (n : ℕ) : (⟨text "Content-Length", decimal n⟩ : Header).Text := by
  obtain ⟨hnames, -, -, hdigits⟩ := written_text
  have hname := hnames (text "Content-Length") (by simp)
  exact ⟨hname.1, hname.2, fun c hc ↦ (hdigits c (Json.isDigit_decimal n c hc)).1⟩

theorem lower_decimal (n : ℕ) : lower (decimal n) = decimal n := by
  obtain ⟨-, -, -, hdigits⟩ := written_text
  rw [lower, List.map_congr_left fun c hc ↦ (hdigits c (Json.isDigit_decimal n c hc)).2,
    List.map_id']

theorem passes_connection
    (hkeep : m.keepAlive = decide (v.httpVersionMajor = 1 ∧ v.httpVersionMinor = 1))
    (htakes : ∀ m : Message α, g.processReadyHeader ⟨text "connection", text "keep-alive"⟩ m =
      Grammar.takeConnection (text "keep-alive") m) :
    (g.scanner hstart).Passes (⟨.headerLineStart, {}⟩, m) (headerLines v.connectionHeaders)
      (⟨.headerLineStart, {}⟩, { m with keepAlive := v.keepAliveTold }) := by
  refine passes_optional connection_text (fun hp ↦ ?_) (fun hp ↦ ?_)
  · have hlower : Header.lower ⟨text "Connection", text "keep-alive"⟩ =
        ⟨text "connection", text "keep-alive"⟩ := by decide
    have htold : v.keepAliveTold = true := decide_eq_true ⟨hp.1, .inr hp.2⟩
    rw [hlower, htakes, Grammar.takeConnection, if_neg (by decide), if_pos rfl,
      List.dropLast_concat, htold]
  · have hsame : v.keepAliveTold = m.keepAlive := by
      rw [hkeep, Message.keepAliveTold, decide_eq_decide]
      refine and_congr_right fun hmajor ↦ or_iff_left fun hminor ↦ hp ⟨hmajor, hminor⟩
    rw [hsame]

theorem passes_length {cast : Bytes → Option ℕ} (hcast : CastsDecimals cast)
    (hlength : v.contentLength < 2 ^ 64) (hnone : m.contentLength = noContentLength)
    (htakes : ∀ (value : Bytes) (m : Message α),
      g.processReadyHeader ⟨text "content-length", value⟩ m =
        Grammar.takeContentLength cast value m) :
    (g.scanner hstart).Passes (⟨.headerLineStart, {}⟩, m) (headerLines v.lengthHeaders)
      (⟨.headerLineStart, {}⟩, { m with contentLength := v.contentLength }) := by
  refine passes_optional (length_text _) (fun _ ↦ ?_) (fun hp ↦ ?_)
  · have hname : lower (text "Content-Length") = text "content-length" := by decide
    rw [Header.lower, hname, lower_decimal, htakes, Grammar.takeContentLength, hcast _ hlength,
      Option.map_some, List.dropLast_concat]
  · have hsame : v.contentLength = m.contentLength := by
      rw [hnone]
      simpa [Message.hasContentLength] using hp
    rw [hsame]

end Taken

/-! ## Requests -/

namespace RequestParser

/-- The headers that go into other fields of a request. -/
def TakesOut (h : Header) : Prop :=
  lower h.name = text "content-length" ∨ lower h.name = text "host" ∨
    lower h.name = text "connection" ∨
      lower h.name = text "authorization" ∧ text "basic" <+: lower h.value

theorem grammar_processReadyHeader (cast : Bytes → Option ℕ) :
    (grammar cast).processReadyHeader = processReadyHeader cast := rfl

theorem processReadyHeader_of_not {cast : Bytes → Option ℕ} {h : Header} (hnot : ¬ TakesOut h)
    (r : Request) : processReadyHeader cast h.lower r = some r := by
  simp only [TakesOut, not_or] at hnot
  obtain ⟨hlength, hhost, hconnection, hauthorization⟩ := hnot
  change ¬ (h.lower.name = _) at hlength hhost hconnection
  rw [processReadyHeader, if_neg hlength, if_neg hhost, if_neg hconnection]
  split_ifs with hname hbasic
  · exact absurd ⟨hname, hbasic⟩ hauthorization
  · rfl
  · rfl

end RequestParser

/-- A request as its text tells it: a host is read in lower case, and an authorization without the
blanks around it. -/
def Request.told (r : Request) : Request :=
  { r with
    own := { r.own with
      host := lower r.own.host
      basicAuthorization :=
        RequestParser.basicValue (text "Basic " ++ r.own.basicAuthorization) }
    keepAlive := r.keepAliveTold }

/-- A request that can be written in lines. -/
structure Request.Writable (r : Request) : Prop where
  method_ne : r.own.method ≠ []
  method_token : ∀ c ∈ r.own.method, isToken c = true
  uri_text : ∀ c ∈ r.own.uri, c ≠ space ∧ isCtl c = false
  headers_text : ∀ h ∈ r.headers, h.Text
  headers_kept : ∀ h ∈ r.headers, ¬ RequestParser.TakesOut h
  host_text : ∀ c ∈ r.own.host, isCtl c = false
  authorization_text : ∀ c ∈ r.own.basicAuthorization, isCtl c = false
  contentLength_lt : r.contentLength < 2 ^ 64

namespace RequestParser

variable (cast : Bytes → Option ℕ) {r : Request}

theorem passes_firstLine (h : r.Writable) :
    (scanner cast).Passes (⟨.own .methodStart, {}⟩, Request.empty)
      (r.own.method ++ (space :: (r.own.uri ++ [space])))
      (⟨.httpVersionH, {}⟩, { Request.empty with
        own := { method := r.own.method, uri := r.own.uri } }) := by
  have hmethod : (scanner cast).Passes (⟨.own .methodStart, {}⟩, Request.empty) r.own.method
      (⟨.own .method, {}⟩, { Request.empty with own := { method := r.own.method } }) := by
    have htoken := h.method_token
    cases hname : r.own.method with
    | nil => exact absurd hname h.method_ne
    | cons c cs =>
      rw [hname, List.forall_mem_cons] at htoken
      have hfirst : (scanner cast).step (⟨.own .methodStart, {}⟩, Request.empty) c =
          (⟨.own .method, {}⟩, { Request.empty with own := { method := [c] } }) := by
        rw [scanner, Grammar.step_scanner]
        simp only [Parser.consume, grammar, consumeOwn, htoken.1, if_true, Parser.goto]
        rfl
      refine .cons rfl ?_
      rw [hfirst]
      refine Scanner.Passes.loop (F := fun l ↦ ((⟨.own .method, {}⟩,
        { Request.empty with own := { method := l } }) : Parser RequestState × Request))
        (fun _ ↦ rfl) (fun l x hx ↦ ?_) [c]
        htoken.2
      have hspace : x ≠ space := ne_of_isToken hx (by decide)
      rw [scanner, Grammar.step_scanner]
      simp only [Parser.consume, grammar, consumeOwn, if_neg hspace, hx, if_true, Parser.goto]
  have huri : (scanner cast).Passes
      (⟨.own .uri, {}⟩, { Request.empty with own := { method := r.own.method } }) r.own.uri
      (⟨.own .uri, {}⟩, { Request.empty with
        own := { method := r.own.method, uri := r.own.uri } }) := by
    refine Scanner.Passes.loop (F := fun l ↦ ((⟨.own .uri, {}⟩,
      { Request.empty with own := { method := r.own.method, uri := l } }) :
        Parser RequestState × Request)) (fun _ ↦ rfl)
      (fun l x hx ↦ ?_) [] h.uri_text
    rw [scanner, Grammar.step_scanner]
    simp only [Parser.consume, grammar, consumeOwn, if_neg hx.1, hx.2, Bool.false_eq_true, if_false,
      Parser.goto]
  exact hmethod.append (.cons rfl (huri.append (.single rfl rfl)))

theorem passes_host (h : r.Writable) {m : Request} (hhost : m.own.host = []) :
    (scanner cast).Passes (⟨.headerLineStart, {}⟩, m) (headerLines r.hostHeaders)
      (⟨.headerLineStart, {}⟩, { m with own := { m.own with host := lower r.own.host } }) := by
  have hname := written_text.1 (text "Host") (by simp)
  refine passes_optional ⟨hname.1, hname.2, h.host_text⟩ (fun _ ↦ ?_) (fun hp ↦ ?_)
  · have hname : lower (text "Host") = text "host" := by decide
    rw [grammar_processReadyHeader, Header.lower, hname, processReadyHeader,
      if_neg (show text "host" ≠ text "content-length" by decide), if_pos rfl, List.dropLast_concat]
  · rw [not_not.1 hp, show lower [] = [] from rfl, ← hhost]

theorem passes_authorization (h : r.Writable) {m : Request}
    (hnone : m.own.basicAuthorization = []) :
    (scanner cast).Passes (⟨.headerLineStart, {}⟩, m) (headerLines r.authorizationHeaders)
      (⟨.headerLineStart, {}⟩, { m with
        own := { m.own with
          basicAuthorization := basicValue (text "Basic " ++ r.own.basicAuthorization) } }) := by
  have htext : (⟨text "Authorization", text "Basic " ++ r.own.basicAuthorization⟩ :
      Header).Text := by
    obtain ⟨hnames, -, hbasic, -⟩ := written_text
    have hname := hnames (text "Authorization") (by simp)
    refine ⟨hname.1, hname.2, fun c hc ↦ ?_⟩
    rcases List.mem_append.1 hc with hc | hc
    · exact hbasic c hc
    · exact h.authorization_text c hc
  refine passes_optional htext (fun _ ↦ ?_) (fun hp ↦ ?_)
  · have hname : lower (text "Authorization") = text "authorization" := by decide
    have hbasic : text "basic" <+: lower (text "Basic " ++ r.own.basicAuthorization) := by
      rw [lower_append]
      exact List.IsPrefix.trans (by decide) (List.prefix_append _ _)
    rw [grammar_processReadyHeader, Header.lower, hname, processReadyHeader,
      if_neg (show text "authorization" ≠ text "content-length" by decide),
      if_neg (show text "authorization" ≠ text "host" by decide),
      if_neg (show text "authorization" ≠ text "connection" by decide), if_pos rfl,
      if_neg (not_not.2 hbasic)]
    dsimp only
    rw [List.getLast?_concat, Option.getD_some, List.dropLast_concat]
  · have hblank : basicValue (text "Basic " ++ []) = [] := by decide
    rw [not_not.1 hp, hblank, ← hnone]

/-- A request is read as its text tells it. -/
theorem passes_toText {cast : Bytes → Option ℕ} (hcast : CastsDecimals cast) (h : r.Writable) :
    (scanner cast).Passes (scanner cast).start r.toText (⟨.good, {}⟩, r.told) := by
  -- the message behind the first line
  let m₀ : Request := { Request.empty with
    own := { method := r.own.method, uri := r.own.uri }
    httpVersionMajor := r.httpVersionMajor
    httpVersionMinor := r.httpVersionMinor
    keepAlive := r.httpVersionMajor = 1 ∧ r.httpVersionMinor = 1 }
  have hversion : (scanner cast).Passes
      (⟨.httpVersionH, {}⟩, { Request.empty with
        own := { method := r.own.method, uri := r.own.uri } })
      (r.versionText ++ [cr]) (⟨.expectingNewline1, {}⟩, m₀) :=
    passes_version (g := grammar cast) rfl rfl (show isDigit cr = false by decide)
  have hline : (scanner cast).Passes (⟨.expectingNewline1, {}⟩, m₀) [lf]
      (⟨.headerLineStart, {}⟩, m₀) := .single rfl rfl
  have hhost := passes_host cast h (m := m₀) rfl
  have hheaders : (scanner cast).Passes
      (⟨.headerLineStart, {}⟩, { m₀ with own := { m₀.own with host := lower r.own.host } })
      (headerLines r.headers) (⟨.headerLineStart, {}⟩, { m₀ with
        own := { m₀.own with host := lower r.own.host }, headers := r.headers }) :=
    passes_headerLines (g := grammar cast) h.headers_text
      fun hd hmem m ↦ processReadyHeader_of_not (h.headers_kept hd hmem) m
  have hauthorization := passes_authorization cast h (m := { m₀ with
    own := { m₀.own with host := lower r.own.host }, headers := r.headers }) rfl
  have hconnection : (scanner cast).Passes
      (⟨.headerLineStart, {}⟩, { m₀ with own := r.told.own, headers := r.headers })
      (headerLines r.connectionHeaders)
      (⟨.headerLineStart, {}⟩, { r.told with contentLength := noContentLength }) :=
    passes_connection (g := grammar cast) rfl fun _ ↦ rfl
  have hlength : (scanner cast).Passes
      (⟨.headerLineStart, {}⟩, { r.told with contentLength := noContentLength })
      (headerLines r.lengthHeaders) (⟨.headerLineStart, {}⟩, r.told) :=
    passes_length (g := grammar cast) hcast h.contentLength_lt rfl fun _ _ ↦ rfl
  have hend : (scanner cast).Passes (⟨.headerLineStart, {}⟩, r.told) crlf (⟨.good, {}⟩, r.told) :=
    passes_end (g := grammar cast)
  have hall := (passes_firstLine cast h).append (hversion.append (hline.append
    (hhost.append (hheaders.append (hauthorization.append (hconnection.append
      (hlength.append hend)))))))
  rw [Request.toText]
  simp only [headerLines_append, List.append_assoc, List.cons_append, List.nil_append] at hall ⊢
  exact hall

end RequestParser

/-! ## Responses -/

namespace ResponseParser

/-- The headers that go into other fields of a response. -/
def TakesOut (h : Header) : Prop :=
  lower h.name = text "content-length" ∨ lower h.name = text "connection"

theorem processReadyHeader_of_not {cast : Bytes → Option ℕ} {h : Header} (hnot : ¬ TakesOut h)
    (r : Response) : processReadyHeader cast h.lower r = some r := by
  simp only [TakesOut, not_or] at hnot
  obtain ⟨hlength, hconnection⟩ := hnot
  change ¬ (h.lower.name = _) at hlength hconnection
  rw [processReadyHeader, if_neg hlength, if_neg hconnection]

end ResponseParser

/-- The text of the status that is written. -/
def Response.reason (r : Response) : Bytes :=
  if r.own.statusText = [] then statusToString r.own.status else r.own.statusText

/-- A response as its text tells it. -/
def Response.told (r : Response) : Response :=
  { r with
    own := { r.own with statusText := r.reason }
    keepAlive := r.keepAliveTold }

/-- A response that can be written in lines. -/
structure Response.Writable (r : Response) : Prop where
  status_ge : 100 ≤ r.own.status
  status_lt : r.own.status < 1000
  statusText_text : ∀ c ∈ r.own.statusText, isCtl c = false
  headers_text : ∀ h ∈ r.headers, h.Text
  headers_kept : ∀ h ∈ r.headers, ¬ ResponseParser.TakesOut h
  contentLength_lt : r.contentLength < 2 ^ 64

namespace ResponseParser

variable (cast : Bytes → Option ℕ) {r : Response}

/-- A status has three digits. -/
theorem decimal_status {n : ℕ} (hge : 100 ≤ n) (hlt : n < 1000) :
    ∃ a b c, decimal n = [a, b, c] := by
  have hlength : (decimal n).length = 3 := by
    have hle := (Nat.length_toDigits_le_iff (b := 10) (n := n) (k := 3) (by decide)
      (by decide)).2 hlt
    have hnot := (Nat.length_toDigits_le_iff (b := 10) (n := n) (k := 2) (by decide)
      (by decide)).not.2 (by omega)
    rw [decimal, List.length_map]
    omega
  exact List.length_eq_three.1 hlength

theorem statusToString_text (status : ℕ) : ∀ c ∈ statusToString status, isCtl c = false := by
  unfold statusToString
  split <;> simp [text, ascii, isCtl]

theorem reason_text (h : r.Writable) : ∀ c ∈ r.reason, isCtl c = false := by
  rw [Response.reason]
  split_ifs
  · exact statusToString_text _
  · exact h.statusText_text

theorem passes_status (h : r.Writable) {m : Response} (hstatus : m.own = {}) :
    (scanner cast).Passes (⟨.own .statusCode1, {}⟩, m)
      (decimal r.own.status ++ (space :: (r.reason ++ [cr])))
      (⟨.expectingNewline1, {}⟩, { m with own := r.told.own }) := by
  obtain ⟨a, b, c, hdecimal⟩ := decimal_status h.status_ge h.status_lt
  have hdigits := Json.isDigit_decimal r.own.status
  have hvalue := Json.decimalValue_decimal r.own.status
  rw [hdecimal] at hdigits hvalue
  simp only [List.forall_mem_cons] at hdigits
  obtain ⟨ha, hb, hc, -⟩ := hdigits
  have hnumber : (scanner cast).Passes (⟨.own .statusCode1, {}⟩, m) (decimal r.own.status)
      (⟨.own .statusCodeSpace, {}⟩, { m with own := { status := r.own.status } }) := by
    rw [hdecimal]
    have hone : (scanner cast).step (⟨.own .statusCode1, {}⟩, m) a =
        (⟨.own .statusCode2, {}⟩, { m with own := { status := decimalValue [a] } }) := by
      rw [scanner, Grammar.step_scanner]
      simp only [Parser.consume, grammar, consumeOwn, ha, if_true, Parser.goto, hstatus]
      rfl
    have htwo : (scanner cast).step
        (⟨.own .statusCode2, {}⟩, { m with own := { status := decimalValue [a] } }) b =
        (⟨.own .statusCode3, {}⟩, { m with own := { status := decimalValue [a, b] } }) := by
      rw [scanner, Grammar.step_scanner]
      simp only [Parser.consume, grammar, consumeOwn, hb, if_true, Parser.goto]
      rfl
    have hthree : (scanner cast).step
        (⟨.own .statusCode3, {}⟩, { m with own := { status := decimalValue [a, b] } }) c =
        (⟨.own .statusCodeSpace, {}⟩, { m with own := { status := r.own.status } }) := by
      rw [scanner, Grammar.step_scanner, ← hvalue]
      simp only [Parser.consume, grammar, consumeOwn, hc, if_true, Parser.goto]
      rfl
    refine .cons rfl ?_
    rw [hone]
    refine .cons rfl ?_
    rw [htwo]
    exact .single rfl hthree
  have htext : (scanner cast).Passes
      (⟨.own .statusText, {}⟩, { m with own := { status := r.own.status } }) r.reason
      (⟨.own .statusText, {}⟩, { m with own := r.told.own }) := by
    refine Scanner.Passes.loop (F := fun l ↦ ((⟨.own .statusText, {}⟩,
      { m with own := { status := r.own.status, statusText := l } }) :
        Parser ResponseState × Response)) (fun _ ↦ rfl) (fun l x hx ↦ ?_) [] (reason_text h)
    have hcr : x ≠ cr := ne_of_isCtl hx (by decide)
    rw [scanner, Grammar.step_scanner]
    simp only [Parser.consume, grammar, consumeOwn, if_neg hcr, hx, Bool.false_eq_true, if_false,
      Parser.goto]
  exact hnumber.append (.cons rfl (htext.append (.single rfl rfl)))

/-- A response is read as its text tells it. -/
theorem passes_toText {cast : Bytes → Option ℕ} (hcast : CastsDecimals cast) (h : r.Writable) :
    (scanner cast).Passes (scanner cast).start r.toText (⟨.good, {}⟩, r.told) := by
  let m₀ : Response := { Response.empty with
    httpVersionMajor := r.httpVersionMajor
    httpVersionMinor := r.httpVersionMinor
    keepAlive := r.httpVersionMajor = 1 ∧ r.httpVersionMinor = 1 }
  have hversion : (scanner cast).Passes (scanner cast).start (r.versionText ++ [space])
      (⟨.own .statusCode1, {}⟩, m₀) :=
    passes_version (g := grammar cast) rfl rfl (show isDigit space = false by decide)
  have hstatus := passes_status cast h (m := m₀) rfl
  have hline : (scanner cast).Passes (⟨.expectingNewline1, {}⟩, { m₀ with own := r.told.own }) [lf]
      (⟨.headerLineStart, {}⟩, { m₀ with own := r.told.own }) := .single rfl rfl
  have hheaders : (scanner cast).Passes (⟨.headerLineStart, {}⟩, { m₀ with own := r.told.own })
      (headerLines r.headers)
      (⟨.headerLineStart, {}⟩, { m₀ with own := r.told.own, headers := r.headers }) :=
    passes_headerLines (g := grammar cast) h.headers_text
      fun hd hmem m ↦ processReadyHeader_of_not (h.headers_kept hd hmem) m
  have hconnection : (scanner cast).Passes
      (⟨.headerLineStart, {}⟩, { m₀ with own := r.told.own, headers := r.headers })
      (headerLines r.connectionHeaders)
      (⟨.headerLineStart, {}⟩, { r.told with contentLength := noContentLength }) :=
    passes_connection (g := grammar cast) rfl fun _ ↦ rfl
  have hlength : (scanner cast).Passes
      (⟨.headerLineStart, {}⟩, { r.told with contentLength := noContentLength })
      (headerLines r.lengthHeaders) (⟨.headerLineStart, {}⟩, r.told) :=
    passes_length (g := grammar cast) hcast h.contentLength_lt rfl fun _ _ ↦ rfl
  have hend : (scanner cast).Passes (⟨.headerLineStart, {}⟩, r.told) crlf (⟨.good, {}⟩, r.told) :=
    passes_end (g := grammar cast)
  have hall := hversion.append (hstatus.append (hline.append (hheaders.append
    (hconnection.append (hlength.append hend)))))
  rw [Response.toText, ← Response.reason]
  simp only [headerLines_append, List.append_assoc, List.cons_append, List.nil_append] at hall ⊢
  exact hall

end ResponseParser

/-! ## Round trip -/

/-- A request with the body that it announces. -/
structure RequestData.Writable (d : RequestData) : Prop where
  request : d.r.Writable
  body : d.body.length = Grammar.expectCount d.r

structure ResponseData.Writable (d : ResponseData) : Prop where
  response : d.r.Writable
  body : d.body.length = Grammar.expectCount d.r

def RequestData.told (d : RequestData) : RequestData := { d with r := d.r.told }

def ResponseData.told (d : ResponseData) : ResponseData := { d with r := d.r.told }

section Frames

variable {α σ : Type} {g : Grammar α σ} {hstart : g.start ≠ .good ∧ g.start ≠ .bad} {m : Message α}
  {head body : Bytes}

/-- A head that is read to its end, and the body that it announces. -/
theorem frame_of_passes
    (hpasses : (g.scanner hstart).Passes (g.scanner hstart).start head (⟨.good, {}⟩, m))
    (hbody : body.length = Grammar.expectCount m) :
    (g.scanner hstart).Frame (head ++ body) ((⟨.good, {}⟩, m), body) := by
  refine ⟨rfl, ?_, head, rfl, ?_⟩
  · rw [Grammar.body_scanner g hstart rfl, hbody]
  · have hscan := hpasses.scan_eq rfl []
    rw [List.append_nil] at hscan
    exact hscan

end Frames

/-- The cast of text that has nothing but digits. -/
def digitsCast (s : Bytes) : Option ℕ :=
  if s ≠ [] ∧ (∀ c ∈ s, isDigit c = true) ∧ decimalValue s < 2 ^ 64 then some (decimalValue s)
  else none

theorem castsDecimals_digitsCast : CastsDecimals digitsCast := by
  intro n hn
  rw [digitsCast, Json.decimalValue_decimal,
    if_pos ⟨Json.decimal_ne_nil n, Json.isDigit_decimal n, hn⟩]

def sampleRequest : RequestData where
  r := {
    own := { method := text "POST", uri := text "/json_rpc", basicAuthorization := text "dXNlcg=="
             host := text "Localhost" }
    httpVersionMajor := 1
    httpVersionMinor := 1
    headers := [⟨text "Accept", text "*/*"⟩]
    contentLength := 2 }
  body := text "[]"

/-- The answer to a request of version 1.0. -/
def sampleResponse : ResponseData where
  r := {
    own := { status := 200 }
    httpVersionMajor := 1
    httpVersionMinor := 0
    contentLength := 2 }
  body := text "[]"

/-- The fields of the samples, at once. -/
theorem sample_text :
    (sampleRequest.r.own.method ≠ [] ∧ (∀ c ∈ sampleRequest.r.own.method, isToken c = true) ∧
      (∀ c ∈ sampleRequest.r.own.uri, c ≠ space ∧ isCtl c = false) ∧
      (∀ h ∈ sampleRequest.r.headers, h.name ≠ [] ∧ (∀ c ∈ h.name, isToken c = true) ∧
        (∀ c ∈ h.value, isCtl c = false) ∧ lower h.name = text "accept") ∧
      (∀ c ∈ sampleRequest.r.own.host, isCtl c = false) ∧
      ∀ c ∈ sampleRequest.r.own.basicAuthorization, isCtl c = false) ∧
    text "accept" ∉ [text "content-length", text "host", text "connection", text "authorization"] ∧
    sampleRequest.body.length = 2 ∧ sampleResponse.body.length = 2 := by
  simp [sampleRequest, sampleResponse, text, ascii, isToken, isTspecial, isCtl, isChar, lower,
    tolower, space]

theorem writable_sampleRequest : sampleRequest.Writable := by
  obtain ⟨⟨hmethod, htoken, huri, hheaders, hhost, hbasic⟩, haccept, hbody, -⟩ := sample_text
  simp only [List.mem_cons, List.not_mem_nil, or_false, not_or] at haccept
  refine ⟨⟨hmethod, htoken, huri, fun h hmem ↦ ?_, fun h hmem htakes ↦ ?_, hhost, hbasic,
    by decide⟩, hbody⟩
  · obtain ⟨hne, hname, hvalue, -⟩ := hheaders h hmem
    exact ⟨hne, hname, hvalue⟩
  · obtain ⟨-, -, -, hname⟩ := hheaders h hmem
    rw [RequestParser.TakesOut, hname] at htakes
    obtain ⟨hlength, hhost', hconnection, hauthorization⟩ := haccept
    rcases htakes with h' | h' | h' | ⟨h', -⟩
    · exact hlength h'
    · exact hhost' h'
    · exact hconnection h'
    · exact hauthorization h'

theorem writable_sampleResponse : sampleResponse.Writable := by
  obtain ⟨-, -, -, hbody⟩ := sample_text
  exact ⟨⟨by decide, by decide, fun c hmem ↦ absurd hmem List.not_mem_nil,
    fun h hmem ↦ absurd hmem List.not_mem_nil, fun h hmem ↦ absurd hmem List.not_mem_nil,
    by decide⟩, hbody⟩

end Naza.Http
