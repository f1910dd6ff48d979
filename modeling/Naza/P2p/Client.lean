import Naza.Lib.Framing
import Naza.Lib.ByteOrder
import Naza.P2p.CircularBuffer

/-!
# Reading from a peer

`P2PClient`: the bytes of the socket go through a buffer into requests, a header and a body each.
The run loop calls it whenever the socket can be read or written; a request that is complete is
taken out by `read_next_request`, which reads on before it answers.
-/

open Lib

namespace Naza

/-! ## The socket -/

/-- `TCPSocket`: the pieces that the next calls of `read_some` find, and how much the next calls of
`write_some` take. -/
structure TCPSocket where
  isOpen : Bool := true
  askedShutdown : Bool := false
  incoming : List Bytes := []
  outgoing : List ℕ := []
  sent : Bytes := []
  deriving DecidableEq

/-- What is found of the first piece that is not used up. -/
def takePiece : List Bytes → ℕ → Bytes × List Bytes
  | [], _ => ([], [])
  | piece :: pieces, size =>
    if piece = [] then takePiece pieces size else (piece.take size, piece.drop size :: pieces)

theorem flatten_takePiece (pieces : List Bytes) (size : ℕ) :
    pieces.flatten = (takePiece pieces size).1 ++ (takePiece pieces size).2.flatten := by
  induction pieces with
  | nil => rfl
  | cons piece pieces ih =>
    rw [takePiece]
    split_ifs with hempty
    · rw [List.flatten_cons, hempty, List.nil_append, ih]
    · rw [List.flatten_cons, List.flatten_cons, ← List.append_assoc, List.take_append_drop]

theorem length_takePiece_le (pieces : List Bytes) (size : ℕ) :
    (takePiece pieces size).1.length ≤ size := by
  induction pieces with
  | nil => exact Nat.zero_le _
  | cons piece pieces ih =>
    rw [takePiece]
    split_ifs with hempty
    · exact ih
    · exact List.length_take_le _ _

/-- Nothing is found only where nothing is left. -/
theorem flatten_of_takePiece_nil {pieces pieces' : List Bytes} {size : ℕ} (hsize : 0 < size)
    (h : takePiece pieces size = ([], pieces')) : pieces'.flatten = [] := by
  induction pieces with
  | nil =>
    cases h
    rfl
  | cons piece pieces ih =>
    rw [takePiece] at h
    split_ifs at h with hempty
    · exact ih h
    · rw [Prod.mk.injEq, List.take_eq_nil_iff] at h
      rcases h.1 with hzero | hnil
      · omega
      · exact absurd hnil hempty

instance : IInputStream TCPSocket where
  readSome s size :=
    let (data, incoming) := takePiece s.incoming size
    (data, { s with incoming })
  rest s := s.incoming.flatten
  rest_eq s size := flatten_takePiece s.incoming size
  length_le s size := length_takePiece_le s.incoming size

namespace TCPSocket

/-- `write_some`. -/
def writeSome (s : TCPSocket) (data : Bytes) : ℕ × TCPSocket :=
  if s.askedShutdown then (0, s)
  else
    match s.outgoing with
    | [] => (0, s)
    | room :: outgoing =>
      let count := min room data.length
      (count, { s with outgoing, sent := s.sent ++ data.take count })

instance : IOutputStream TCPSocket where
  writeSome := writeSome
  written s := s.sent
  written_eq s data := by
    unfold writeSome
    split
    · rw [List.take_zero, List.append_nil]
    · split
      · rw [List.take_zero, List.append_nil]
      · rfl
  le_length s data := by
    unfold writeSome
    split
    · exact Nat.zero_le _
    · split
      · exact Nat.zero_le _
      · exact Nat.min_le_right _ _

/-- `close`; the socket is empty afterwards. -/
def close (s : TCPSocket) : TCPSocket := { isOpen := false, sent := s.sent }

/-- `shutdown_both`: what was received is dropped. -/
def shutdownBoth (s : TCPSocket) : TCPSocket :=
  if s.askedShutdown then s else { s with askedShutdown := true, incoming := [] }

/-- Bytes arrive and there is room for others; nothing is received any more once a shutdown was
asked for. -/
def arrive (s : TCPSocket) (pieces : List Bytes) (room : List ℕ) : TCPSocket :=
  { s with
    incoming := if s.askedShutdown then s.incoming else s.incoming ++ pieces
    outgoing := room }

end TCPSocket

/-- `VectorInputStream::copy_to`: what is left of the stream. -/
def copyVectorTo {σ : Type} [IOutputStream σ] : ℕ → Bytes → σ → Except Fault (Bytes × σ)
  | fuel, data, s =>
    if data.length = 0 then .ok (data, s)
    else
      match fuel with
      | 0 => .error .diverged
      | fuel + 1 =>
        let (count, s) := IOutputStream.writeSome s data
        if count = 0 then .ok (data.drop count, s) else copyVectorTo fuel (data.drop count) s

/-! ## Headers -/

namespace LevinProtocol

def levinSignature : UInt64 := 0x0101010101012101
def packetRequest : UInt32 := 1
def packetResponse : UInt32 := 2
def defaultMaxPacketSize : UInt64 := 100000000
def protocolVersion1 : UInt32 := 1

/-- `bucket_head2`. -/
structure BucketHead where
  signature : UInt64 := 0
  cb : UInt64 := 0
  haveToReturnData : UInt8 := 0
  command : UInt32 := 0
  returnCode : Int32 := 0
  flags : UInt32 := 0
  protocolVersion : UInt32 := 0

def headerSize : ℕ := 33

/-- Fields of some sizes, packed and little endian. -/
def packed (fields : List (ℕ × ℕ)) : Bytes := fields.flatMap fun f ↦ (natToBytes f.1 f.2).reverse

/-- The field of some size at an offset. -/
def fieldAt (raw : Bytes) (offset size : ℕ) : ℕ :=
  bytesToNat ((raw.drop offset).take size).reverse

def BucketHead.toBytes (head : BucketHead) : Bytes :=
  packed [(8, head.signature.toNat), (8, head.cb.toNat), (1, head.haveToReturnData.toNat),
    (4, head.command.toNat), (4, head.returnCode.toUInt32.toNat), (4, head.flags.toNat),
    (4, head.protocolVersion.toNat)]

def BucketHead.ofBytes (raw : Bytes) : BucketHead where
  signature := UInt64.ofNat (fieldAt raw 0 8)
  cb := UInt64.ofNat (fieldAt raw 8 8)
  haveToReturnData := UInt8.ofNat (fieldAt raw 16 1)
  command := UInt32.ofNat (fieldAt raw 17 4)
  returnCode := (UInt32.ofNat (fieldAt raw 21 4)).toInt32
  flags := UInt32.ofNat (fieldAt raw 25 4)
  protocolVersion := UInt32.ofNat (fieldAt raw 29 4)

structure Command where
  command : UInt32
  isNotify : Bool
  isResponse : Bool

/-- The command and the length of the body, or the reason for a ban. -/
def readCommandHeader (rawHeader : Bytes) : Except String (Command × ℕ) :=
  let head := BucketHead.ofBytes rawHeader
  if rawHeader.length ≠ headerSize then .error "Levin wrong header size"
  else if head.signature ≠ levinSignature then .error "Levin signature mismatch"
  else if head.cb > defaultMaxPacketSize then .error "Levin packet size is too big"
  else
    let cmd := {
      command := head.command
      isNotify := head.haveToReturnData == 0
      isResponse := head.flags &&& packetResponse == packetResponse }
    .ok (cmd, head.cb.toNat)

/-- The header of `send_message`. -/
def messageHead (command : UInt32) (out : Bytes) (needResponse : Bool) : BucketHead where
  signature := levinSignature
  cb := UInt64.ofNat out.length
  haveToReturnData := if needResponse then 1 else 0
  command := command
  protocolVersion := protocolVersion1
  flags := packetRequest

def sendMessage (command : UInt32) (out : Bytes) (needResponse : Bool) : Bytes :=
  (messageHead command out needResponse).toBytes ++ out

/-- The header of `send_reply`. -/
def replyHead (command : UInt32) (out : Bytes) (returnCode : Int32) : BucketHead where
  signature := levinSignature
  cb := UInt64.ofNat out.length
  haveToReturnData := 0
  command := command
  protocolVersion := protocolVersion1
  flags := packetResponse
  returnCode := returnCode

def sendReply (command : UInt32) (out : Bytes) (returnCode : Int32) : Bytes :=
  (replyHead command out returnCode).toBytes ++ out

end LevinProtocol

/-! ## The client -/

namespace P2PClient

def recommendedBufferSize : ℕ := 8192

/-- The headers of a kind of client: their size and `on_request_header`, with the reason for a
ban. -/
structure HeaderFormat extends Framing.Format UInt8 String where
  headerSize_le : headerSize ≤ recommendedBufferSize

/-- The headers of `P2PClientBasic`. -/
def levin : HeaderFormat where
  headerSize := LevinProtocol.headerSize
  headerSize_pos := by decide
  bodyLength header := (LevinProtocol.readCommandHeader header).map Prod.snd
  headerSize_le := by decide

abbrev Request := Framing.Request UInt8

/-- What becomes of the connection when a request has been handled. -/
inductive Ending where
  | proceeds
  /-- `send_shutdown` -/
  | shutsDown
  | disconnects (banReason : String)
  deriving DecidableEq

/-- What the handler of a request does to its connection. -/
structure Reaction where
  responses : List Bytes := []
  ending : Ending := .proceeds

/-- The handlers, which may look at all requests of the connection. -/
abbrev Handlers := List Request → Reaction

end P2PClient

open P2PClient

/-- The fields of a client; the last two are what its virtual functions and `d_handler` were called
with. -/
structure P2PClient where
  sock : TCPSocket := {}
  request : Bytes := []
  requestBodyLength : ℕ := 0
  receivingBody : Bool := false
  receivingBodyStream : VectorStream := {}
  buffer : CircularBuffer := CircularBuffer.make recommendedBufferSize
  responses : List Bytes := []
  waitingShutdown : Bool := false
  requests : List Request := []
  disconnected : List String := []
  deriving DecidableEq

namespace P2PClient

/-! ## Writing -/

/-- The loop of `write`. -/
def writeResponses : List Bytes → TCPSocket → Except Fault (List Bytes × TCPSocket)
  | [], sock => .ok ([], sock)
  | front :: responses, sock => do
    let (front, sock) ← copyVectorTo front.length front sock
    if front.length ≠ 0 then return (front :: responses, sock)
    else writeResponses responses sock

def write (c : P2PClient) : Except Fault P2PClient := do
  let (responses, sock) ← writeResponses c.responses c.sock
  let c := { c with responses, sock }
  if c.responses = [] ∧ c.waitingShutdown = true then
    return { c with sock := c.sock.shutdownBoth }
  else return c

def send (body : Bytes) (c : P2PClient) : Except Fault P2PClient :=
  { c with responses := c.responses ++ [body] }.write

def sendAll (bodies : List Bytes) (c : P2PClient) : Except Fault P2PClient :=
  bodies.foldlM (fun c body ↦ c.send body) c

def sendShutdown (c : P2PClient) : Except Fault P2PClient :=
  { c with waitingShutdown := true }.write

def disconnect (banReason : String) (c : P2PClient) : P2PClient :=
  { c with
    buffer := c.buffer.clear
    receivingBody := false
    request := []
    receivingBodyStream := {}
    responses := []
    sock := c.sock.close
    disconnected := c.disconnected ++ [banReason] }

/-! ## Reading -/

/-- The loop of `read` while a body is received; what follows a complete one is given. -/
def readBody (requestReady : P2PClient → Except Fault P2PClient) :
    ℕ → P2PClient → Except Fault P2PClient
  | fuel, c => do
    invariant (c.receivingBodyStream.buffer.length ≤ c.requestBodyLength) ""
    let maxCount := c.requestBodyLength - c.receivingBodyStream.buffer.length
    let (_, buffer, receivingBodyStream) ← c.buffer.copyTo c.receivingBodyStream maxCount
    let c := { c with buffer, receivingBodyStream }
    if c.receivingBodyStream.buffer.length = c.requestBodyLength then requestReady c
    else
      let (buffer, sock) ← c.buffer.copyFrom c.sock
      let c := { c with buffer, sock }
      if c.buffer.size = 0 then return c
      else
        match fuel with
        | 0 => .error .diverged
        | fuel + 1 => readBody requestReady fuel c

/-- The bytes that have not yet gone into a request. -/
def unread (c : P2PClient) : ℕ := c.buffer.size + (IInputStream.rest c.sock).length

/-- `read`; `requestReady` is `on_request_ready` when it is called from the run loop.  Each round of
its loop uses up some of the bytes at hand. -/
def read (fmt : HeaderFormat) (requestReady : P2PClient → Except Fault P2PClient) (c : P2PClient) :
    Except Fault P2PClient := do
  if c.receivingBody = true then readBody requestReady c.unread c
  else
    let (buffer, sock) ← c.buffer.copyFrom c.sock
    let c := { c with buffer, sock }
    if c.buffer.size < fmt.headerSize then return c
    else
      let (request, buffer) ← c.buffer.read fmt.headerSize
      let c := { c with request, buffer }
      match fmt.bodyLength request with
      | .error banReason => return c.disconnect banReason
      | .ok requestBodyLength =>
        let c := { c with requestBodyLength, receivingBody := true, receivingBodyStream := {} }
        readBody requestReady c.unread c

def advanceState (fmt : HeaderFormat) (requestReady : P2PClient → Except Fault P2PClient)
    (c : P2PClient) : Except Fault P2PClient := do
  let c ← c.write
  if 1 < c.responses.length then return c else c.read fmt requestReady

/-- `read_next_request`: the request, if one is answered, and the client. -/
def readNextRequest (fmt : HeaderFormat) (c : P2PClient) :
    Except Fault (Option Request × P2PClient) := do
  let c ← c.advanceState fmt .ok
  if c.receivingBody = false then return (none, c)
  else if c.receivingBodyStream.buffer.length ≠ c.requestBodyLength then return (none, c)
  else
    let request := (c.request, c.receivingBodyStream.buffer)
    let c := { c with
      request := []
      receivingBodyStream := {}
      receivingBody := false
      requestBodyLength := 0 }
    return (if c.waitingShutdown = true then none else some request, c)

/-! ## The run loop -/

/-- The handler of a request: its responses, then what it does to the connection. -/
def handle (react : Handlers) (r : Request) (c : P2PClient) : Except Fault P2PClient := do
  let c := { c with requests := c.requests ++ [r] }
  let reaction := react c.requests
  let c ← c.sendAll reaction.responses
  match reaction.ending with
  | .proceeds => return c
  | .shutsDown => c.sendShutdown
  | .disconnects banReason => return c.disconnect banReason

/-- `on_request_ready`.  Where it returns after a disconnect there is nothing more to read. -/
def onRequestReady (fmt : HeaderFormat) (react : Handlers) :
    ℕ → P2PClient → Except Fault P2PClient
  | fuel, c => do
    match ← c.readNextRequest fmt with
    | (none, c) => return c
    | (some r, c) =>
      match fuel with
      | 0 => .error .diverged
      | fuel + 1 =>
        let c ← c.handle react r
        onRequestReady fmt react fuel c

/-- The bytes that were received and not yet taken out. -/
def pending (c : P2PClient) : ℕ :=
  c.request.length + c.receivingBodyStream.buffer.length + c.unread

/-- Bytes that arrive before the run loop calls the client, and the messages that the node sends
meanwhile of its own accord. -/
structure Arrival where
  pieces : List Bytes
  room : List ℕ := []
  messages : List Bytes := []

/-- The call from the run loop; a closed socket makes none. -/
def step (fmt : HeaderFormat) (react : Handlers) (c : P2PClient) (e : Arrival) :
    Except Fault P2PClient :=
  if c.sock.isOpen = false then .ok c
  else do
    let c ← sendAll e.messages { c with sock := c.sock.arrive e.pieces e.room }
    c.advanceState fmt fun c ↦ onRequestReady fmt react c.pending c

/-- The client after some calls, from a new connection. -/
def run (fmt : HeaderFormat) (react : Handlers) (arrivals : List Arrival) :
    Except Fault P2PClient :=
  arrivals.foldlM (step fmt react) {}

end P2PClient

end Naza
