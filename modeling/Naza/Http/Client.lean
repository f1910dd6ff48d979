import Naza.Http.Types
import Naza.Lib.Ends
import Naza.P2p.ClientReads

/-!
# A connection of the HTTP server

`http::Client`: the bytes of a socket go through a buffer into the parser and the body of a request;
a request that is complete is taken out, and no other one is before its response is written.
-/

open Lib

namespace Naza.Http

/-- The fields of a connection; the last three are the bytes that arrived, the requests that were
taken out and the responses that were written. -/
structure Client where
  buffer : CircularBuffer := CircularBuffer.make 8192
  responses : List Bytes := []
  request : Request := Request.empty
  parser : Parser RequestState := { state := .own .methodStart }
  receivingBody : Bool := false
  receivingBodyStream : VectorStream := {}
  waitingWriteResponse : Bool := false
  sock : TCPSocket := {}
  keepAlive : Bool := true
  received : Bytes := []
  requests : List RequestData := []
  answers : List ResponseData := []
  deriving DecidableEq

namespace Client

/-! ## Writing -/

/-- `write` of what is to be sent. -/
def writeOut (c : Client) : Except Fault Client := do
  let (responses, sock) ← P2PClient.writeResponses c.responses c.sock
  let c := { c with responses, sock }
  if c.waitingWriteResponse = false ∧ c.responses = [] ∧ c.keepAlive = false then
    return { c with sock := c.sock.shutdownBoth, keepAlive := true }
  else return c

def unsetVersion : String := "Someone forgot to set version, method, status or url"

/-- `write` of a response. -/
def write (response : ResponseData) (c : Client) : Except Fault Client := do
  invariant (c.waitingWriteResponse = true) "Client unexpected write"
  let c := { c with waitingWriteResponse := false }
  invariant (response.r.httpVersionMajor ≠ 0) unsetVersion
  writeOut { c with
    keepAlive := response.r.keepAlive
    responses := c.responses ++ [response.r.toText, response.body]
    answers := c.answers ++ [response] }

/-! ## Reading -/

def readNext (c : Client) : Option RequestData × Client :=
  if c.waitingWriteResponse = true then (none, c)
  else if c.receivingBody = false then (none, c)
  else if c.receivingBodyStream.buffer.length ≠ Grammar.expectCount c.request then (none, c)
  else
    let data := { r := c.request, body := c.receivingBodyStream.buffer }
    (some data, { c with
      receivingBodyStream := {}
      request := Request.empty
      parser := { state := .own .methodStart }
      receivingBody := false
      waitingWriteResponse := true
      requests := c.requests ++ [data] })

/-- `parse` of what is at the front of the buffer. -/
def parse (cast : Bytes → Option ℕ) (c : Client) : Except Fault Client := do
  let data ← c.buffer.copyOut c.buffer.readCount
  let ((parser, request), rest) := (RequestParser.scanner cast).scan (c.parser, c.request) data
  let buffer ← c.buffer.didRead (data.length - rest.length)
  return { c with buffer, parser, request }

/-- `advance_state` while the head of a request is received; twice to read both parts of the
buffer. -/
def readHead (cast : Bytes → Option ℕ) (c : Client) : Except Fault Client :=
  if c.receivingBody = true then .ok c
  else do
    let (buffer, sock) ← c.buffer.copyFrom c.sock
    let c ← { c with buffer, sock }.parse cast
    let c ← c.parse cast
    match c.parser.state with
    | .good => return { c with receivingBody := true, receivingBodyStream := {} }
    | .bad => return { c with sock := c.sock.shutdownBoth }
    | _ => return c

/-- The loop of `advance_state` for the body, and whether it has come to an end. -/
def readBody : ℕ → Client → Except Fault (Bool × Client)
  | fuel, c => do
    let maxCount := Grammar.expectCount c.request - c.receivingBodyStream.buffer.length
    let (_, buffer, receivingBodyStream) ← c.buffer.copyTo c.receivingBodyStream maxCount
    let c := { c with buffer, receivingBodyStream }
    if c.receivingBodyStream.buffer.length = Grammar.expectCount c.request then return (true, c)
    else
      let (buffer, sock) ← c.buffer.copyFrom c.sock
      let c := { c with buffer, sock }
      if c.buffer.size = 0 then return (false, c)
      else
        match fuel with
        | 0 => .error .diverged
        | fuel + 1 => readBody fuel c

/-- The bytes that have not yet gone into a body. -/
def unread (c : Client) : ℕ := c.buffer.size + (IInputStream.rest c.sock).length

/-- `advance_state` up to the call of `r_handler`, and whether it is called. -/
def advanceState (cast : Bytes → Option ℕ) (c : Client) : Except Fault (Bool × Client) := do
  let c ← c.writeOut
  if c.responses ≠ [] ∨ c.waitingWriteResponse = true then return (false, c)
  else
    let c ← c.readHead cast
    if c.receivingBody = false then return (false, c) else c.readBody c.unread

/-- Bytes arrive and there is room for others. -/
def arrive (pieces : List Bytes) (room : List ℕ) (c : Client) : Client :=
  { c with sock := c.sock.arrive pieces room, received := c.received ++ pieces.flatten }

end Client

/-! ## What a connection keeps -/

/-- A response to a request of its version and with its `keep_alive`. -/
structure Replies (request : RequestData) (response : ResponseData) : Prop where
  httpVersionMajor : response.r.httpVersionMajor = request.r.httpVersionMajor
  httpVersionMinor : response.r.httpVersionMinor = request.r.httpVersionMinor
  keepAlive : response.r.keepAlive = request.r.keepAlive

namespace Client

variable {cast : Bytes → Option ℕ} {c c' : Client}

/-- The body as far as it is received. -/
def body (c : Client) : Bytes := if c.receivingBody = true then c.receivingBodyStream.buffer else []

/-- What arrived: the requests that were taken out, then the head that the parser has read, the
body, what is to be read, and what was dropped after a shutdown. -/
structure Accounts (cast : Bytes → Option ℕ) (c : Client) (taken head dropped : Bytes) : Prop where
  wire : ∃ ms, (RequestParser.scanner cast).Wire taken ms ∧
    c.requests = ms.map fun m ↦ ⟨m.1.2, m.2⟩
  scan_eq : (RequestParser.scanner cast).scan (RequestParser.scanner cast).start head =
    ((c.parser, c.request), [])
  received : c.received = taken ++ (head ++ (c.body ++ (c.buffer.contents ++
    (c.sock.incoming.flatten ++ dropped))))
  dropped_eq : c.sock.askedShutdown = false → dropped = []

structure Sound (cast : Bytes → Option ℕ) (c : Client) : Prop where
  buffer : c.buffer.Sound 8192
  stream : ∃ taken head dropped, Accounts cast c taken head dropped
  good : c.receivingBody = true → c.parser.state = .good
  body_le : c.receivingBody = true →
    c.receivingBodyStream.buffer.length ≤ Grammar.expectCount c.request
  waiting : c.waitingWriteResponse = true → c.receivingBody = false
  sent : c.sock.sent ++ c.responses.flatten = c.answers.flatMap ResponseData.wire
  count : c.requests.length = c.answers.length + c.waitingWriteResponse.toNat
  replies : List.Forall₂ Replies (c.requests.take c.answers.length) c.answers

/-- The connection stands between the same request and response. -/
structure SameTurn (c c' : Client) : Prop where
  requests : c'.requests = c.requests
  answers : c'.answers = c.answers
  waiting : c'.waitingWriteResponse = c.waitingWriteResponse

theorem SameTurn.refl (c : Client) : SameTurn c c := ⟨rfl, rfl, rfl⟩

theorem SameTurn.trans {c₁ c₂ c₃ : Client} (h : SameTurn c₁ c₂) (h' : SameTurn c₂ c₃) :
    SameTurn c₁ c₃ :=
  ⟨h'.requests.trans h.requests, h'.answers.trans h.answers, h'.waiting.trans h.waiting⟩

theorem sound_new (cast : Bytes → Option ℕ) : Sound cast {} where
  buffer := CircularBuffer.sound_make _
  stream := by
    refine ⟨[], [], [], ⟨[], .nil, rfl⟩, rfl, ?_, fun _ ↦ rfl⟩
    rw [CircularBuffer.contents_make]
    rfl
  good h := by cases h
  body_le h := by cases h
  waiting h := by cases h
  sent := rfl
  count := rfl
  replies := .nil

/-! ## Writing -/

theorem copyVectorTo_written {σ : Type} [IOutputStream σ] {fuel : ℕ} {data data' : Bytes} {s s' : σ}
    (h : copyVectorTo fuel data s = .ok (data', s')) :
    IOutputStream.written s' ++ data' = IOutputStream.written s ++ data := by
  induction fuel generalizing data s with
  | zero =>
    unfold copyVectorTo at h
    split_ifs at h with hempty
    cases h
    rfl
  | succ fuel ih =>
    rw [copyVectorTo] at h
    split_ifs at h with hempty
    · cases h
      rfl
    have hwritten := IOutputStream.written_eq s data
    generalize IOutputStream.writeSome s data = taken at h hwritten
    obtain ⟨count, s₁⟩ := taken
    dsimp only at h hwritten
    have hstep : IOutputStream.written s₁ ++ data.drop count = IOutputStream.written s ++ data := by
      rw [hwritten, List.append_assoc, List.take_append_drop]
    split_ifs at h with hcount
    · cases h
      exact hstep
    · rw [ih h, hstep]

theorem writeResponses_sent {responses responses' : List Bytes} {s s' : TCPSocket}
    (h : P2PClient.writeResponses responses s = .ok (responses', s')) :
    s'.sent ++ responses'.flatten = s.sent ++ responses.flatten := by
  induction responses generalizing s with
  | nil =>
    cases h
    rfl
  | cons front responses ih =>
    rw [P2PClient.writeResponses, bind_eq_ok_iff] at h
    obtain ⟨⟨front', s₁⟩, hcopy, h⟩ := h
    have hfront : s₁.sent ++ front' = s.sent ++ front := copyVectorTo_written hcopy
    dsimp only at h
    split_ifs at h with hleft
    · cases h
      rw [List.flatten_cons, List.flatten_cons, ← List.append_assoc, hfront, List.append_assoc]
    · rw [ih h]
      rw [not_not, List.length_eq_zero_iff] at hleft
      rw [hleft, List.append_nil] at hfront
      rw [hfront, List.flatten_cons, List.append_assoc]

/-- A socket that drops what it has not given. -/
theorem exists_dropped (s : TCPSocket) (dropped : Bytes)
    (hdropped : s.askedShutdown = false → dropped = []) :
    ∃ dropped', s.incoming.flatten ++ dropped = s.shutdownBoth.incoming.flatten ++ dropped' ∧
      (s.shutdownBoth.askedShutdown = false → dropped' = []) := by
  unfold TCPSocket.shutdownBoth
  split_ifs with hasked
  · exact ⟨dropped, rfl, hdropped⟩
  · refine ⟨s.incoming.flatten ++ dropped, rfl, fun h ↦ ?_⟩
    cases h

theorem sent_shutdownBoth (s : TCPSocket) : s.shutdownBoth.sent = s.sent := by
  unfold TCPSocket.shutdownBoth
  split_ifs <;> rfl

/-- A shutdown drops input only. -/
theorem Sound.shutdownBoth (h : Sound cast c) (keepAlive : Bool) :
    Sound cast { c with sock := c.sock.shutdownBoth, keepAlive } := by
  obtain ⟨taken, head, dropped, hstream⟩ := h.stream
  obtain ⟨dropped', heq, hdropped'⟩ := exists_dropped c.sock dropped hstream.dropped_eq
  refine ⟨h.buffer, ⟨taken, head, dropped', hstream.wire, hstream.scan_eq, ?_, hdropped'⟩, h.good,
    h.body_le, h.waiting, ?_, h.count, h.replies⟩
  · rw [hstream.received, heq]
    rfl
  · rw [← h.sent]
    dsimp only
    rw [sent_shutdownBoth]

/-- Responses leave in their order. -/
theorem Sound.writeOut (h : Sound cast c) : ∃ c', c.writeOut = .ok c' ∧ Sound cast c' ∧
    SameTurn c c' ∧ c'.receivingBody = c.receivingBody := by
  obtain ⟨responses, sock, hok, hsame⟩ := P2PClient.writeResponses_socket c.responses c.sock
  have hsent := writeResponses_sent hok
  obtain ⟨taken, head, dropped, hstream⟩ := h.stream
  have hsound : Sound cast { c with responses, sock } := by
    refine ⟨h.buffer, ⟨taken, head, dropped, hstream.wire, hstream.scan_eq, ?_, ?_⟩, h.good,
      h.body_le, h.waiting, hsent.trans h.sent, h.count, h.replies⟩
    · rw [hstream.received]
      dsimp only
      rw [hsame.incoming]
      rfl
    · dsimp only
      rw [hsame.askedShutdown]
      exact hstream.dropped_eq
  by_cases hlast : c.waitingWriteResponse = false ∧ responses = [] ∧ c.keepAlive = false
  · refine ⟨_, ?_, hsound.shutdownBoth true, ⟨rfl, rfl, rfl⟩, rfl⟩
    rw [Client.writeOut, P2PClient.bind_of_ok hok]
    exact if_pos hlast
  · refine ⟨_, ?_, hsound, ⟨rfl, rfl, rfl⟩, rfl⟩
    rw [Client.writeOut, P2PClient.bind_of_ok hok]
    exact if_neg hlast

/-- The only error that a response can meet. -/
def VersionFault (e : Fault) : Prop := e = .invariant unsetVersion

/-- The response to the last request. -/
theorem Sound.write (h : Sound cast c) (hwaiting : c.waitingWriteResponse = true)
    {request : RequestData} (hlast : c.requests.getLast? = some request) {response : ResponseData}
    (hreplies : Replies request response) :
    Ends (fun c' ↦ Sound cast c' ∧ c'.requests = c.requests ∧
      c'.answers = c.answers ++ [response] ∧ c'.waitingWriteResponse = false ∧
        c'.receivingBody = false) (¬ VersionFault ·) (c.write response) := by
  unfold Client.write
  rw [P2PClient.bind_of_ok (a := ()) (invariant_eq_ok_iff.2 hwaiting)]
  dsimp only
  by_cases hversion : response.r.httpVersionMajor ≠ 0
  · rw [P2PClient.bind_of_ok (a := ()) (invariant_eq_ok_iff.2 hversion)]
    have hcount := h.count
    rw [hwaiting] at hcount
    change c.requests.length = c.answers.length + 1 at hcount
    have hrequests : c.requests = c.requests.take c.answers.length ++ [request] := by
      obtain ⟨before, hbefore⟩ := List.getLast?_eq_some_iff.1 hlast
      rw [hbefore, List.length_append, List.length_singleton, Nat.add_right_cancel_iff] at hcount
      rw [hbefore, ← hcount, List.take_left]
    have hsound : Sound cast { c with
        waitingWriteResponse := false
        keepAlive := response.r.keepAlive
        responses := c.responses ++ [response.r.toText, response.body]
        answers := c.answers ++ [response] } := by
      obtain ⟨taken, head, dropped, hstream⟩ := h.stream
      refine ⟨h.buffer, ⟨taken, head, dropped, hstream.wire, hstream.scan_eq, hstream.received,
        hstream.dropped_eq⟩, h.good, h.body_le, fun hnot ↦ (by cases hnot), ?_, ?_, ?_⟩
      · dsimp only
        rw [List.flatten_append, ← List.append_assoc, h.sent, List.flatMap_append]
        simp [ResponseData.wire]
      · dsimp only
        rw [hcount, List.length_append]
        rfl
      · dsimp only
        rw [List.length_append, List.length_singleton, ← hcount, List.take_length, hrequests]
        exact List.rel_append h.replies (.cons hreplies .nil)
    obtain ⟨c', hok, hsound', hturn, hreceiving⟩ := hsound.writeOut
    rw [hok]
    exact ⟨hsound', hturn.requests, hturn.answers, hturn.waiting,
      hreceiving.trans (h.waiting hwaiting)⟩
  · rw [invariant, if_neg hversion]
    exact not_not.2 rfl

/-! ## Reading -/

/-- A request that is complete is taken out. -/
theorem Sound.readNext (h : Sound cast c) :
    c.readNext = (none, c) ∨ ∃ request c', c.readNext = (some request, c') ∧ Sound cast c' ∧
      c'.requests = c.requests ++ [request] ∧ c'.answers = c.answers ∧
        c.waitingWriteResponse = false ∧ c'.waitingWriteResponse = true := by
  by_cases hwaiting : c.waitingWriteResponse = true
  · exact Or.inl (if_pos hwaiting)
  by_cases hreceiving : c.receivingBody = false
  · refine Or.inl ?_
    rw [Client.readNext, if_neg hwaiting, if_pos hreceiving]
  by_cases hlength : c.receivingBodyStream.buffer.length ≠ Grammar.expectCount c.request
  · refine Or.inl ?_
    rw [Client.readNext, if_neg hwaiting, if_neg hreceiving, if_pos hlength]
  rw [Bool.not_eq_true] at hwaiting
  rw [Bool.not_eq_false] at hreceiving
  rw [not_not] at hlength
  refine Or.inr ⟨⟨c.request, c.receivingBodyStream.buffer⟩, { c with
    receivingBodyStream := {}
    request := Request.empty
    parser := { state := .own .methodStart }
    receivingBody := false
    waitingWriteResponse := true
    requests := c.requests ++ [⟨c.request, c.receivingBodyStream.buffer⟩] },
    ?_, ?_, rfl, rfl, hwaiting, rfl⟩
  · rw [Client.readNext, if_neg (by rw [hwaiting]; decide), if_neg (by rw [hreceiving]; decide),
      if_neg (not_not.2 hlength)]
  obtain ⟨taken, head, dropped, ⟨ms, hwire, hrequests⟩, hhead, hreceived, hdropped⟩ := h.stream
  have hgood := h.good hreceiving
  have hframe : (RequestParser.scanner cast).Frame (head ++ c.receivingBodyStream.buffer)
      ((c.parser, c.request), c.receivingBodyStream.buffer) := by
    refine ⟨?_, ?_, head, rfl, hhead⟩
    · change c.parser.stops = true
      rw [Parser.stops, hgood]
    · rw [RequestParser.scanner, Grammar.body_scanner _ _ hgood, hlength]
  refine ⟨h.buffer, ⟨taken ++ (head ++ c.receivingBodyStream.buffer), [], dropped,
    ⟨_, hwire.snoc hframe, ?_⟩, rfl, ?_, hdropped⟩, fun hnot ↦ (by cases hnot),
    fun hnot ↦ (by cases hnot), fun _ ↦ rfl, h.sent, ?_, ?_⟩
  · rw [List.map_append, ← hrequests]
    rfl
  · rw [hreceived, body, if_pos hreceiving]
    simp only [List.append_assoc, List.nil_append]
    rfl
  · have hcount := h.count
    rw [hwaiting] at hcount
    dsimp only
    rw [List.length_append, hcount]
    rfl
  · have hcount := h.count
    rw [hwaiting] at hcount
    have hle : c.answers.length ≤ c.requests.length := by
      rw [hcount]
      exact Nat.le_add_right _ _
    dsimp only
    rw [List.take_append_of_le_length hle]
    exact h.replies

/-- `copy_from` on the socket of a connection. -/
theorem Sound.copyFrom (h : Sound cast c) : ∃ buffer sock,
    c.buffer.copyFrom c.sock = .ok (buffer, sock) ∧ Sound cast { c with buffer, sock } ∧
      buffer.contents.length + sock.incoming.flatten.length =
        c.buffer.contents.length + c.sock.incoming.flatten.length ∧
      (buffer.contents.length = 8192 ∨ sock.incoming.flatten = []) := by
  obtain ⟨buffer, sock, taken, hok, hsound, hrest, hcontents, hstop, hkeeps⟩ :=
    h.buffer.copyFrom c.sock
  change c.sock.incoming.flatten = taken ++ sock.incoming.flatten at hrest
  obtain ⟨hasked, hsent⟩ := hkeeps
    (fun s ↦ s.askedShutdown = c.sock.askedShutdown ∧ s.sent = c.sock.sent)
    (fun _ _ hs ↦ hs) ⟨rfl, rfl⟩
  obtain ⟨taken', head, dropped, htaken, hhead, hreceived, hdropped⟩ := h.stream
  refine ⟨buffer, sock, hok, ⟨hsound, ⟨taken', head, dropped, htaken, hhead, ?_, ?_⟩, h.good,
    h.body_le, h.waiting, ?_, h.count, h.replies⟩, ?_, hstop.imp_right P2PClient.flatten_of_dry⟩
  · rw [hreceived, hrest]
    dsimp only
    rw [hcontents]
    simp only [List.append_assoc]
    rfl
  · dsimp only
    rw [hasked]
    exact hdropped
  · dsimp only
    rw [hsent]
    exact h.sent
  · rw [hcontents, hrest, List.length_append, List.length_append]
    omega

/-- The parser goes on with what is at the front of the buffer. -/
theorem Sound.parse (h : Sound cast c) (hreceiving : c.receivingBody = false) :
    ∃ c', c.parse cast = .ok c' ∧ Sound cast c' ∧ SameTurn c c' ∧ c'.receivingBody = false := by
  have hle := h.buffer.readCount_le
  have hcopy := h.buffer.copyOut (Nat.le_refl c.buffer.readCount)
  have hlength : (c.buffer.contents.take c.buffer.readCount).length = c.buffer.readCount := by
    rw [List.length_take]
    omega
  obtain ⟨read, hread, hscan⟩ := (RequestParser.scanner cast).exists_read (c.parser, c.request)
    (c.buffer.contents.take c.buffer.readCount)
  generalize hfound : (RequestParser.scanner cast).scan (c.parser, c.request)
    (c.buffer.contents.take c.buffer.readCount) = found at hread hscan
  obtain ⟨⟨parser, request⟩, rest⟩ := found
  dsimp only at hread hscan
  have hreadLength := congrArg List.length hread
  rw [hlength, List.length_append] at hreadLength
  have hcount : c.buffer.readCount - rest.length = read.length := by omega
  have hreadLe : read.length ≤ c.buffer.readCount := by omega
  obtain ⟨buffer, hdid, hsound, hcontents⟩ := h.buffer.didRead hreadLe
  have hsplit : c.buffer.contents = read ++ buffer.contents := by
    have htake : c.buffer.contents.take read.length = read := by
      have heq := congrArg (List.take read.length) hread
      rw [List.take_take, List.take_left, Nat.min_eq_left (by omega)] at heq
      exact heq
    rw [hcontents]
    conv_lhs => rw [← List.take_append_drop read.length c.buffer.contents, htake]
  refine ⟨{ c with buffer, parser, request }, ?_, ?_, ⟨rfl, rfl, rfl⟩, hreceiving⟩
  · rw [Client.parse, P2PClient.bind_of_ok hcopy]
    dsimp only
    rw [hfound]
    dsimp only
    rw [hlength, hcount, P2PClient.bind_of_ok hdid]
    rfl
  obtain ⟨taken, head, dropped, htaken, hhead, hreceived, hdropped⟩ := h.stream
  have hnone : c.receivingBody = true → False := fun hyes ↦ by
    rw [hreceiving] at hyes
    cases hyes
  refine ⟨hsound, ⟨taken, head ++ read, dropped, htaken, ?_, ?_, hdropped⟩,
    fun hyes ↦ (hnone hyes).elim, fun hyes ↦ (hnone hyes).elim, h.waiting, h.sent, h.count,
    h.replies⟩
  · rw [Scanner.scan_append, hhead]
    exact hscan
  · have hbody : c.body = [] := if_neg (by rw [hreceiving]; decide)
    change _ = _ ++ (_ ++ (c.body ++ _))
    rw [hreceived, hbody, hsplit]
    simp only [List.append_assoc, List.nil_append]

/-- The head of a request, as far as it is there. -/
theorem Sound.readHead (h : Sound cast c) (hwaiting : c.waitingWriteResponse = false) :
    ∃ c', c.readHead cast = .ok c' ∧ Sound cast c' ∧ SameTurn c c' := by
  by_cases halready : c.receivingBody = true
  · exact ⟨c, if_pos halready, h, .refl c⟩
  have hreceiving : c.receivingBody = false := Bool.not_eq_true _ ▸ halready
  obtain ⟨buffer, sock, hok, hsound, -⟩ := h.copyFrom
  obtain ⟨c₁, hparse₁, hsound₁, hturn₁, hreceiving₁⟩ := hsound.parse hreceiving
  obtain ⟨c₂, hparse₂, hsound₂, hturn₂, hreceiving₂⟩ := hsound₁.parse hreceiving₁
  have hturn : SameTurn c c₂ :=
    SameTurn.trans ⟨hturn₁.requests, hturn₁.answers, hturn₁.waiting⟩ hturn₂
  have hhead : c.readHead cast = match c₂.parser.state with
      | .good => .ok { c₂ with receivingBody := true, receivingBodyStream := {} }
      | .bad => .ok { c₂ with sock := c₂.sock.shutdownBoth }
      | _ => .ok c₂ := by
    rw [Client.readHead, if_neg halready, P2PClient.bind_of_ok hok]
    dsimp only
    rw [P2PClient.bind_of_ok hparse₁, P2PClient.bind_of_ok hparse₂]
    rfl
  rw [hhead]
  split
  · next hgood =>
    refine ⟨_, rfl, ?_, ⟨hturn.requests, hturn.answers, hturn.waiting⟩⟩
    obtain ⟨taken, head, dropped, htaken, hscan, hreceived, hdropped⟩ := hsound₂.stream
    refine ⟨hsound₂.buffer, ⟨taken, head, dropped, htaken, hscan, ?_, hdropped⟩, fun _ ↦ hgood,
      fun _ ↦ Nat.zero_le _, fun hyes ↦ ?_, hsound₂.sent, hsound₂.count, hsound₂.replies⟩
    · have hbody : c₂.body = [] := if_neg (by rw [hreceiving₂]; decide)
      rw [hreceived, hbody]
      rfl
    · change c₂.waitingWriteResponse = true at hyes
      rw [hturn.waiting, hwaiting] at hyes
      cases hyes
  · exact ⟨_, rfl, hsound₂.shutdownBoth c₂.keepAlive,
      ⟨hturn.requests, hturn.answers, hturn.waiting⟩⟩
  · exact ⟨_, rfl, hsound₂, hturn⟩

/-- The rounds for the body come to its end or use up what there is. -/
theorem Sound.readBody (h : Sound cast c) (hreceiving : c.receivingBody = true) {fuel : ℕ}
    (hfuel : c.buffer.contents.length + c.sock.incoming.flatten.length ≤ fuel ∨
      c.buffer.contents ≠ [] ∧
        c.buffer.contents.length + c.sock.incoming.flatten.length ≤ fuel + 1) :
    ∃ done c', Client.readBody fuel c = .ok (done, c') ∧ Sound cast c' ∧ SameTurn c c' := by
  induction fuel using Nat.strong_induction_on generalizing c with
  | _ fuel ih =>
    obtain ⟨buffer, stream, given, hcopy, hbuffer, hwritten, hcontents, hgiven, hstop⟩ :=
      h.buffer.copyTo c.receivingBodyStream
        (Grammar.expectCount c.request - c.receivingBodyStream.buffer.length)
    change stream.buffer = c.receivingBodyStream.buffer ++ given at hwritten
    have hle := h.body_le hreceiving
    have hstream : stream.buffer.length ≤ Grammar.expectCount c.request := by
      rw [hwritten, List.length_append]
      omega
    have hsound : Sound cast { c with buffer, receivingBodyStream := stream } := by
      obtain ⟨taken, head, dropped, htaken, hhead, hreceived, hdropped⟩ := h.stream
      refine ⟨hbuffer, ⟨taken, head, dropped, htaken, hhead, ?_, hdropped⟩, h.good,
        fun _ ↦ hstream, h.waiting, h.sent, h.count, h.replies⟩
      rw [hreceived, body, body, if_pos hreceiving, if_pos hreceiving, hcontents, hwritten]
      simp only [List.append_assoc]
    unfold Client.readBody
    rw [P2PClient.bind_of_ok hcopy]
    dsimp only
    by_cases hfull : stream.buffer.length = Grammar.expectCount c.request
    · rw [if_pos hfull]
      exact ⟨true, _, rfl, hsound, ⟨rfl, rfl, rfl⟩⟩
    rw [if_neg hfull]
    -- the body takes all that there is in the buffer
    have hempty : buffer.contents = [] := by
      rcases hstop with hcount | hnil | hrefuses
      · refine absurd ?_ hfull
        rw [hwritten, List.length_append]
        omega
      · exact hnil
      · exact absurd hrefuses (P2PClient.not_refuses_vectorStream stream)
    obtain ⟨buffer₂, sock, hfrom, hsound₂, hlength, -⟩ := hsound.copyFrom
    dsimp only at hfrom hlength
    rw [hempty, List.length_nil, Nat.zero_add] at hlength
    rw [P2PClient.bind_of_ok hfrom]
    dsimp only
    by_cases hnone : buffer₂.size = 0
    · rw [if_pos hnone]
      exact ⟨false, _, rfl, hsound₂, ⟨rfl, rfl, rfl⟩⟩
    rw [if_neg hnone]
    have hne : buffer₂.contents ≠ [] := fun hnil ↦ hnone (by
      rw [hsound₂.buffer.size_eq, hnil]
      rfl)
    have hpos := List.length_pos_iff.2 hne
    have hfuel' : c.sock.incoming.flatten.length ≤ fuel := by
      rcases hfuel with hfuel | ⟨hcontents', hfuel⟩
      · omega
      · have hpos' := List.length_pos_iff.2 hcontents'
        omega
    cases fuel with
    | zero => omega
    | succ fuel =>
      obtain ⟨done, c', hok, hsound', hturn⟩ := ih fuel (Nat.lt_succ_self _) hsound₂ hreceiving
        (Or.inr ⟨hne, by dsimp only; omega⟩)
      exact ⟨done, c', hok, hsound', ⟨hturn.requests, hturn.answers, hturn.waiting⟩⟩

/-- `advance_state` loses nothing, whatever the socket gives and takes. -/
theorem Sound.advanceState (h : Sound cast c) :
    ∃ called c', c.advanceState cast = .ok (called, c') ∧ Sound cast c' ∧ SameTurn c c' := by
  obtain ⟨c₁, hwrite, hsound₁, hturn₁, -⟩ := h.writeOut
  rw [Client.advanceState, P2PClient.bind_of_ok hwrite]
  by_cases hbusy : c₁.responses ≠ [] ∨ c₁.waitingWriteResponse = true
  · rw [if_pos hbusy]
    exact ⟨false, c₁, rfl, hsound₁, hturn₁⟩
  rw [if_neg hbusy]
  rw [not_or, Bool.not_eq_true] at hbusy
  obtain ⟨c₂, hhead, hsound₂, hturn₂⟩ := hsound₁.readHead hbusy.2
  rw [P2PClient.bind_of_ok hhead]
  by_cases hreceiving : c₂.receivingBody = false
  · rw [if_pos hreceiving]
    exact ⟨false, c₂, rfl, hsound₂, hturn₁.trans hturn₂⟩
  rw [if_neg hreceiving]
  have hunread : c₂.unread = c₂.buffer.contents.length + c₂.sock.incoming.flatten.length := by
    rw [unread, hsound₂.buffer.size_eq]
    rfl
  obtain ⟨done, c₃, hok, hsound₃, hturn₃⟩ := hsound₂.readBody (Bool.not_eq_false _ ▸ hreceiving)
    (Or.inl hunread.ge)
  exact ⟨done, c₃, hok, hsound₃, hturn₁.trans (hturn₂.trans hturn₃)⟩

theorem Sound.arrive (h : Sound cast c) (pieces : List Bytes) (room : List ℕ) :
    Sound cast (c.arrive pieces room) := by
  obtain ⟨taken, head, dropped, htaken, hhead, hreceived, hdropped⟩ := h.stream
  by_cases hasked : c.sock.askedShutdown = true
  · have hincoming : (c.sock.arrive pieces room).incoming = c.sock.incoming := if_pos hasked
    refine ⟨h.buffer, ⟨taken, head, dropped ++ pieces.flatten, htaken, hhead, ?_, fun hnot ↦ ?_⟩,
      h.good, h.body_le, h.waiting, h.sent, h.count, h.replies⟩
    · change c.received ++ _ = _ ++ (_ ++ (c.body ++ (_ ++
        ((c.sock.arrive pieces room).incoming.flatten ++ _))))
      rw [hreceived, hincoming]
      simp only [List.append_assoc]
      rfl
    · change c.sock.askedShutdown = false at hnot
      rw [hasked] at hnot
      cases hnot
  · have hincoming : (c.sock.arrive pieces room).incoming = c.sock.incoming ++ pieces :=
      if_neg hasked
    have hnone := hdropped (Bool.not_eq_true _ ▸ hasked)
    refine ⟨h.buffer, ⟨taken, head, [], htaken, hhead, ?_, fun _ ↦ rfl⟩,
      h.good, h.body_le, h.waiting, h.sent, h.count, h.replies⟩
    change c.received ++ _ = _ ++ (_ ++ (c.body ++ (_ ++
      ((c.sock.arrive pieces room).incoming.flatten ++ _))))
    rw [hreceived, hincoming, hnone, List.flatten_append]
    simp only [List.append_assoc, List.append_nil]
    rfl

/-- The requests that were taken out are the first ones of the stream. -/
theorem Sound.requests_start (h : Sound cast c) : c.requests <+: requestsOf cast c.received := by
  obtain ⟨taken, head, dropped, ⟨ms, hwire, hrequests⟩, -, hreceived, -⟩ := h.stream
  rw [requestsOf, hreceived, hwire.messages_append, List.map_append, hrequests]
  exact List.prefix_append _ _

end Client

end Naza.Http
