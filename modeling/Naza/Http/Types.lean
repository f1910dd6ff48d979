import Naza.Json
import Naza.Lib.Scanner

/-!
# Requests and responses

`http::request` and `http::response`: their text, and `RequestParser` and `ResponseParser`, which
read it byte by byte.  The two parsers have the version and the headers in common; they differ in
the rest of the first line and in the headers that they take out.  A version is of type `int`; the
model leaves out that it overflows.
-/

open Lib

namespace Naza.Http

open Json (ascii text decimal isDigit)

structure Header where
  name : Bytes := []
  value : Bytes := []
  deriving DecidableEq

/-- `size_t(-1)`. -/
def noContentLength : ℕ := 2 ^ 64 - 1

/-- The fields that `request` and `response` share, and those of one of them. -/
structure Message (α : Type) where
  own : α
  httpVersionMajor : ℕ := 0
  httpVersionMinor : ℕ := 0
  headers : List Header := []
  keepAlive : Bool := true
  contentLength : ℕ := noContentLength
  deriving DecidableEq

structure RequestFields where
  method : Bytes := []
  uri : Bytes := []
  basicAuthorization : Bytes := []
  host : Bytes := []
  deriving DecidableEq

structure ResponseFields where
  status : ℕ := 0
  statusText : Bytes := []
  deriving DecidableEq

abbrev Request := Message RequestFields
abbrev Response := Message ResponseFields

/-- `Request` as the parser finds it. -/
def Request.empty : Request := { own := {} }

def Response.empty : Response := { own := {} }

def Message.hasContentLength {α : Type} (m : Message α) : Bool :=
  m.contentLength ≠ noContentLength

/-! ## Characters -/

def cr : UInt8 := 13
def lf : UInt8 := 10
def space : UInt8 := 32
def tab : UInt8 := 9

def isChar (c : UInt8) : Bool := c < 128

def isCtl (c : UInt8) : Bool := c ≤ 31 || c = 127

def isTspecial (c : UInt8) : Bool :=
  (text "()<>@,;:\\\"/[]?=\x7b\x7d \t").contains c

/-- What a method and the name of a header are made of. -/
def isToken (c : UInt8) : Bool := isChar c && !isCtl c && !isTspecial c

def tolower (c : UInt8) : UInt8 := if 65 ≤ c ∧ c ≤ 90 then c + 32 else c

def lower (s : Bytes) : Bytes := s.map tolower

/-! ## Writing -/

def crlf : Bytes := [cr, lf]

def statusToString (status : ℕ) : Bytes :=
  match status with
  | 200 => text "OK"
  | 400 => text "Bad request"
  | 401 => text "Unauthorized"
  | 403 => text "Forbidden"
  | 404 => text "Not found"
  | 422 => text "Unprocessable Entity"
  | 500 => text "Internal Error"
  | 501 => text "Not implemented"
  | 502 => text "Service temporarily overloaded"
  | 503 => text "Gateway timeout"
  | _ => text "Unknown"

def headerLine (h : Header) : Bytes := h.name ++ (text ": " ++ (h.value ++ crlf))

def headerLines (hs : List Header) : Bytes := hs.flatMap headerLine

namespace Message

variable {α : Type} (m : Message α)

def versionText : Bytes :=
  text "HTTP/" ++ (decimal m.httpVersionMajor ++ (ascii '.' :: decimal m.httpVersionMinor))

/-- The header that asks for what is not usual of the version. -/
def connectionHeaders : List Header :=
  if m.httpVersionMajor = 1 ∧ m.httpVersionMinor = 0 ∧ m.keepAlive = true then
    [⟨text "Connection", text "keep-alive"⟩]
  else []

def lengthHeaders : List Header :=
  if m.hasContentLength then [⟨text "Content-Length", decimal m.contentLength⟩] else []

end Message

def Request.hostHeaders (r : Request) : List Header :=
  if r.own.host ≠ [] then [⟨text "Host", r.own.host⟩] else []

def Request.authorizationHeaders (r : Request) : List Header :=
  if r.own.basicAuthorization ≠ [] then
    [⟨text "Authorization", text "Basic " ++ r.own.basicAuthorization⟩]
  else []

/-- `request::to_string`. -/
def Request.toText (r : Request) : Bytes :=
  r.own.method ++ (space :: (r.own.uri ++ (space :: (r.versionText ++ (crlf ++
    (headerLines (r.hostHeaders ++ (r.headers ++ (r.authorizationHeaders ++
      (r.connectionHeaders ++ r.lengthHeaders)))) ++ crlf))))))

/-- `response::to_string`. -/
def Response.toText (r : Response) : Bytes :=
  r.versionText ++ (space :: (decimal r.own.status ++ (space ::
    ((if r.own.statusText = [] then statusToString r.own.status else r.own.statusText) ++ (crlf ++
      (headerLines (r.headers ++ (r.connectionHeaders ++ r.lengthHeaders)) ++ crlf))))))

/-! ## Reading -/

/-- The states that the parsers share, and those of one of them. -/
inductive ParserState (σ : Type) where
  | own (s : σ)
  | httpVersionH
  | httpVersionT1
  | httpVersionT2
  | httpVersionP
  | httpVersionSlash
  | httpVersionMajorStart
  | httpVersionMajor
  | httpVersionMinorStart
  | httpVersionMinor
  | expectingNewline1
  | headerLineStart
  | headerLws
  | headerName
  | spaceBeforeHeaderValue
  | headerValue
  | expectingNewline2
  | expectingNewline3
  | good
  | bad
  deriving DecidableEq

/-- A parser, and the header that it reads in lower case. -/
structure Parser (σ : Type) where
  state : ParserState σ
  lowcase : Header := {}
  deriving DecidableEq

/-- What one of the parsers has of its own: where it starts, its states, what ends the version, and
`process_ready_header`, which takes the header in lower case. -/
structure Grammar (α σ : Type) where
  start : ParserState σ
  empty : Message α
  consumeOwn : σ → Message α → UInt8 → ParserState σ × Message α
  versionEnd : UInt8
  afterVersion : ParserState σ
  processReadyHeader : Header → Message α → Option (Message α)

/-- A change to `headers.back()`. -/
def onBack (f : Header → Header) (hs : List Header) : List Header :=
  hs.dropLast ++ (hs.getLast?.map f).toList

def digit (c : UInt8) : ℕ := c.toNat - 0x30

namespace Parser

variable {α σ : Type}

def goto (p : Parser σ) (state : ParserState σ) (m : Message α) : Parser σ × Message α :=
  ({ p with state }, m)

/-- A character of the name of a header, behind the first one. -/
def pushName (p : Parser σ) (m : Message α) (input : UInt8) : Parser σ × Message α :=
  ({ state := .headerName
     lowcase := { p.lowcase with name := p.lowcase.name ++ [tolower input] } },
    { m with headers := onBack (fun h ↦ { h with name := h.name ++ [input] }) m.headers })

/-- A character of the value of a header. -/
def pushValue (p : Parser σ) (m : Message α) (input : UInt8) : Parser σ × Message α :=
  ({ state := .headerValue
     lowcase := { p.lowcase with value := p.lowcase.value ++ [tolower input] } },
    { m with headers := onBack (fun h ↦ { h with value := h.value ++ [input] }) m.headers })

def pushMajor (p : Parser σ) (m : Message α) (input : UInt8) : Parser σ × Message α :=
  p.goto .httpVersionMajor { m with httpVersionMajor := m.httpVersionMajor * 10 + digit input }

def pushMinor (p : Parser σ) (m : Message α) (input : UInt8) : Parser σ × Message α :=
  p.goto .httpVersionMinor { m with httpVersionMinor := m.httpVersionMinor * 10 + digit input }

/-- `consume`. -/
def consume (g : Grammar α σ) (p : Parser σ) (m : Message α) (input : UInt8) :
    Parser σ × Message α :=
  match p.state with
  | .own s => p.goto (g.consumeOwn s m input).1 (g.consumeOwn s m input).2
  | .httpVersionH => p.goto (if input = ascii 'H' then .httpVersionT1 else .bad) m
  | .httpVersionT1 => p.goto (if input = ascii 'T' then .httpVersionT2 else .bad) m
  | .httpVersionT2 => p.goto (if input = ascii 'T' then .httpVersionP else .bad) m
  | .httpVersionP => p.goto (if input = ascii 'P' then .httpVersionSlash else .bad) m
  | .httpVersionSlash => p.goto (if input = ascii '/' then .httpVersionMajorStart else .bad) m
  | .httpVersionMajorStart => if isDigit input then p.pushMajor m input else p.goto .bad m
  | .httpVersionMajor =>
    if input = ascii '.' then p.goto .httpVersionMinorStart m
    else if isDigit input then p.pushMajor m input
    else p.goto .bad m
  | .httpVersionMinorStart => if isDigit input then p.pushMinor m input else p.goto .bad m
  | .httpVersionMinor =>
    if input = g.versionEnd then
      p.goto g.afterVersion
        { m with keepAlive := m.httpVersionMajor = 1 ∧ m.httpVersionMinor = 1 }
    else if isDigit input then p.pushMinor m input
    else p.goto .bad m
  | .expectingNewline1 => p.goto (if input = lf then .headerLineStart else .bad) m
  | .headerLineStart =>
    if input = cr then p.goto .expectingNewline3 m
    else if m.headers ≠ [] ∧ (input = space ∨ input = tab) then p.goto .headerLws m
    else if isToken input then
      p.pushName { m with headers := m.headers ++ [{}] } input
    else p.goto .bad m
  | .headerLws =>
    if input = cr then p.goto .expectingNewline2 m
    else if input = space ∨ input = tab then p.goto .headerLws m
    else if isCtl input then p.goto .bad m
    else p.pushValue m input
  | .headerName =>
    if input = ascii ':' then p.goto .spaceBeforeHeaderValue m
    else if isToken input then p.pushName m input
    else p.goto .bad m
  | .spaceBeforeHeaderValue => p.goto (if input = space then .headerValue else .bad) m
  | .headerValue =>
    if input = cr then
      match g.processReadyHeader p.lowcase m with
      | none => p.goto .bad m
      | some m => ({ state := .expectingNewline2 }, m)
    else if isCtl input then p.goto .bad m
    else p.pushValue m input
  | .expectingNewline2 => p.goto (if input = lf then .headerLineStart else .bad) m
  | .expectingNewline3 => p.goto (if input = lf then .good else .bad) m
  | .good | .bad => p.goto .bad m

/-- The loop of `parse` ends in these states. -/
def stops (p : Parser σ) : Bool :=
  match p.state with
  | .good | .bad => true
  | _ => false

end Parser

namespace Grammar

variable {α σ : Type} (g : Grammar α σ)

/-- `content-length`; `cast` is `lexical_cast`. -/
def takeContentLength (cast : Bytes → Option ℕ) (value : Bytes) (m : Message α) :
    Option (Message α) :=
  (cast value).map fun contentLength ↦ { m with contentLength, headers := m.headers.dropLast }

/-- `connection`. -/
def takeConnection (value : Bytes) (m : Message α) : Option (Message α) :=
  if value = text "close" then some { m with keepAlive := false, headers := m.headers.dropLast }
  else if value = text "keep-alive" then
    some { m with keepAlive := true, headers := m.headers.dropLast }
  else none

/-- What is sent for a body of a message that has been read. -/
def expectCount (m : Message α) : ℕ := if m.hasContentLength then m.contentLength else 0

/-- `parse`, from the start of a message. -/
def scanner (h : g.start ≠ .good ∧ g.start ≠ .bad) : Scanner (Parser σ × Message α) UInt8 where
  start := ({ state := g.start }, g.empty)
  step s input := s.1.consume g s.2 input
  stops s := s.1.stops
  body s := match s.1.state with
    | .good => some (expectCount s.2)
    | _ => none
  goes_start := by
    unfold Parser.stops
    split
    · next heq => exact absurd heq h.1
    · next heq => exact absurd heq h.2
    · rfl

end Grammar

theorem Grammar.step_scanner {α σ : Type} (g : Grammar α σ) (h : g.start ≠ .good ∧ g.start ≠ .bad)
    (s : Parser σ × Message α) (input : UInt8) :
    (g.scanner h).step s input = s.1.consume g s.2 input := rfl

theorem Grammar.body_scanner {α σ : Type} (g : Grammar α σ) (h : g.start ≠ .good ∧ g.start ≠ .bad)
    {s : Parser σ × Message α} (hgood : s.1.state = .good) :
    (g.scanner h).body s = some (expectCount s.2) := by
  rw [Grammar.scanner]
  dsimp only
  rw [hgood]

/-! ### Requests -/

inductive RequestState where
  | methodStart
  | method
  | uri
  deriving DecidableEq

namespace RequestParser

def consumeOwn (s : RequestState) (r : Request) (input : UInt8) :
    ParserState RequestState × Request :=
  let pushMethod := { r with own := { r.own with method := r.own.method ++ [input] } }
  match s with
  | .methodStart => if isToken input then (.own .method, pushMethod) else (.bad, r)
  | .method =>
    if input = space then (.own .uri, r)
    else if isToken input then (.own .method, pushMethod)
    else (.bad, r)
  | .uri =>
    if input = space then (.httpVersionH, r)
    else if isCtl input then (.bad, r)
    else (.own .uri, { r with own := { r.own with uri := r.own.uri ++ [input] } })

def isBlank (c : UInt8) : Bool := c = space || c = tab

/-- What follows the word `basic`, without the blanks around it. -/
def basicValue (value : Bytes) : Bytes :=
  (((value.drop 5).dropWhile isBlank).reverse.dropWhile isBlank).reverse

def processReadyHeader (cast : Bytes → Option ℕ) (lowcase : Header) (r : Request) :
    Option Request :=
  if lowcase.name = text "content-length" then Grammar.takeContentLength cast lowcase.value r
  else if lowcase.name = text "host" then
    some { r with own := { r.own with host := lowcase.value }, headers := r.headers.dropLast }
  else if lowcase.name = text "connection" then Grammar.takeConnection lowcase.value r
  else if lowcase.name = text "authorization" then
    if ¬ text "basic" <+: lowcase.value then some r
    else
      let value := (r.headers.getLast?.getD {}).value
      some { r with
        own := { r.own with basicAuthorization := basicValue value }
        headers := r.headers.dropLast }
  else some r

def grammar (cast : Bytes → Option ℕ) : Grammar RequestFields RequestState where
  start := .own .methodStart
  empty := Request.empty
  consumeOwn := consumeOwn
  versionEnd := cr
  afterVersion := .expectingNewline1
  processReadyHeader := processReadyHeader cast

/-- `RequestParser::parse`. -/
def scanner (cast : Bytes → Option ℕ) : Scanner (Parser RequestState × Request) UInt8 :=
  (grammar cast).scanner ⟨by rintro ⟨⟩, by rintro ⟨⟩⟩

end RequestParser

/-! ### Responses -/

inductive ResponseState where
  | statusCode1
  | statusCode2
  | statusCode3
  | statusCodeSpace
  | statusText
  deriving DecidableEq

namespace ResponseParser

def consumeOwn (s : ResponseState) (r : Response) (input : UInt8) :
    ParserState ResponseState × Response :=
  let pushDigit (state : ParserState ResponseState) : ParserState ResponseState × Response :=
    if isDigit input then
      (state, { r with own := { r.own with status := r.own.status * 10 + digit input } })
    else (.bad, r)
  match s with
  | .statusCode1 => pushDigit (.own .statusCode2)
  | .statusCode2 => pushDigit (.own .statusCode3)
  | .statusCode3 => pushDigit (.own .statusCodeSpace)
  | .statusCodeSpace => (if input = space then .own .statusText else .bad, r)
  | .statusText =>
    if input = cr then (.expectingNewline1, r)
    else if isCtl input then (.bad, r)
    else (.own .statusText,
      { r with own := { r.own with statusText := r.own.statusText ++ [input] } })

def processReadyHeader (cast : Bytes → Option ℕ) (lowcase : Header) (r : Response) :
    Option Response :=
  if lowcase.name = text "content-length" then Grammar.takeContentLength cast lowcase.value r
  else if lowcase.name = text "connection" then Grammar.takeConnection lowcase.value r
  else some r

def grammar (cast : Bytes → Option ℕ) : Grammar ResponseFields ResponseState where
  start := .httpVersionH
  empty := Response.empty
  consumeOwn := consumeOwn
  versionEnd := space
  afterVersion := .own .statusCode1
  processReadyHeader := processReadyHeader cast

/-- `ResponseParser::parse`. -/
def scanner (cast : Bytes → Option ℕ) : Scanner (Parser ResponseState × Response) UInt8 :=
  (grammar cast).scanner ⟨by rintro ⟨⟩, by rintro ⟨⟩⟩

end ResponseParser

/-! ## Messages with their bodies -/

/-- A request and its body. -/
structure RequestData where
  r : Request
  body : Bytes
  deriving DecidableEq

structure ResponseData where
  r : Response
  body : Bytes
  deriving DecidableEq

/-- `response(const request &)`. -/
def ResponseData.ofRequest (r : Request) : ResponseData where
  r := {
    own := {}
    httpVersionMajor := r.httpVersionMajor
    httpVersionMinor := r.httpVersionMinor
    keepAlive := r.keepAlive }
  body := []

def ResponseData.setBody (d : ResponseData) (body : Bytes) : ResponseData :=
  { r := { d.r with contentLength := body.length }, body }

/-- What a request is sent as. -/
def RequestData.wire (d : RequestData) : Bytes := d.r.toText ++ d.body

def ResponseData.wire (d : ResponseData) : Bytes := d.r.toText ++ d.body

/-- The requests that a stream starts with. -/
def requestsOf (cast : Bytes → Option ℕ) (stream : Bytes) : List RequestData :=
  ((RequestParser.scanner cast).messages stream).map fun m ↦ ⟨m.1.2, m.2⟩

def responsesOf (cast : Bytes → Option ℕ) (stream : Bytes) : List ResponseData :=
  ((ResponseParser.scanner cast).messages stream).map fun m ↦ ⟨m.1.2, m.2⟩

end Naza.Http
