import Naza.P2p.Client

/-!
# What one call of a client reads

Reading moves bytes from the socket to the buffer and on to the body, and loses none of them: what a
client holds is the stream that is left, until a request is taken off its front or its header is
refused.
-/

open Lib Lib.Framing

namespace Naza.P2PClient

variable {fmt : HeaderFormat} {c c' : P2PClient}

/-! ## The bytes of a client -/

/-- The bytes that were received and not yet taken out, in their order. -/
def held (c : P2PClient) : Bytes :=
  (if c.receivingBody = true then c.request ++ c.receivingBodyStream.buffer else []) ++
    (c.buffer.contents ++ c.sock.incoming.flatten)

/-- The invariant of the fields that are read into. -/
structure Sound (fmt : HeaderFormat) (c : P2PClient) : Prop where
  buffer : c.buffer.Sound recommendedBufferSize
  header : c.receivingBody = true → c.request.length = fmt.headerSize
  body : c.receivingBody = true → fmt.bodyLength c.request = .ok c.requestBodyLength
  stream_le : c.receivingBody = true →
    c.receivingBodyStream.buffer.length ≤ c.requestBodyLength

/-- A request is there, header and body. -/
structure Complete (c : P2PClient) : Prop where
  receiving : c.receivingBody = true
  length_eq : c.receivingBodyStream.buffer.length = c.requestBodyLength

/-- All that was received has been looked at, and no request is there. -/
structure Waiting (fmt : HeaderFormat) (c : P2PClient) : Prop where
  incomplete : Incomplete fmt.toFormat c.held
  not_complete : ¬ Complete c

/-- What reading leaves alone. -/
structure Keeps (c c' : P2PClient) : Prop where
  requests : c'.requests = c.requests
  disconnected : c'.disconnected = c.disconnected
  waitingShutdown : c'.waitingShutdown = c.waitingShutdown
  isOpen : c'.sock.isOpen = c.sock.isOpen
  askedShutdown : c'.sock.askedShutdown = c.sock.askedShutdown

theorem Keeps.refl (c : P2PClient) : Keeps c c := ⟨rfl, rfl, rfl, rfl, rfl⟩

theorem Keeps.trans {c₁ c₂ c₃ : P2PClient} (h : Keeps c₁ c₂) (h' : Keeps c₂ c₃) : Keeps c₁ c₃ :=
  ⟨h'.requests.trans h.requests, h'.disconnected.trans h.disconnected,
    h'.waitingShutdown.trans h.waitingShutdown, h'.isOpen.trans h.isOpen,
    h'.askedShutdown.trans h.askedShutdown⟩

theorem flatten_of_dry {s : TCPSocket} (h : CircularBuffer.Dry s) : s.incoming.flatten = [] := by
  obtain ⟨s₁, size, hsize, hsome⟩ := h
  change (_, _) = _ at hsome
  rw [Prod.mk.injEq] at hsome
  obtain ⟨hdata, rfl⟩ := hsome
  exact flatten_of_takePiece_nil hsize (Prod.ext hdata rfl)

theorem not_refuses_vectorStream (s : VectorStream) : ¬ CircularBuffer.Refuses s := by
  rintro ⟨s₁, data, hne, hsome⟩
  change (_, _) = _ at hsome
  rw [Prod.mk.injEq] at hsome
  exact hne (List.length_eq_zero_iff.1 hsome.1)

theorem bind_of_ok {α β : Type} {x : Except Fault α} {a : α} (h : x = .ok a)
    (f : α → Except Fault β) : x >>= f = f a := by
  rw [h]
  rfl

/-! ## Writing -/

/-- The socket took some bytes and gave none. -/
structure SameInput (s s' : TCPSocket) : Prop where
  isOpen : s'.isOpen = s.isOpen
  askedShutdown : s'.askedShutdown = s.askedShutdown
  incoming : s'.incoming = s.incoming

theorem SameInput.refl (s : TCPSocket) : SameInput s s := ⟨rfl, rfl, rfl⟩

theorem SameInput.trans {s₁ s₂ s₃ : TCPSocket} (h : SameInput s₁ s₂) (h' : SameInput s₂ s₃) :
    SameInput s₁ s₃ :=
  ⟨h'.isOpen.trans h.isOpen, h'.askedShutdown.trans h.askedShutdown,
    h'.incoming.trans h.incoming⟩

theorem sameInput_writeSome (s : TCPSocket) (data : Bytes) :
    SameInput s (IOutputStream.writeSome s data).2 := by
  change SameInput s (s.writeSome data).2
  unfold TCPSocket.writeSome
  split
  · exact .refl s
  · split
    · exact .refl s
    · exact ⟨rfl, rfl, rfl⟩

theorem copyVectorTo_socket {fuel : ℕ} {data : Bytes} (s : TCPSocket) (h : data.length ≤ fuel) :
    ∃ data' s', copyVectorTo fuel data s = .ok (data', s') ∧ SameInput s s' := by
  induction fuel generalizing data s with
  | zero =>
    unfold copyVectorTo
    exact ⟨data, s, if_pos (Nat.le_zero.1 h), .refl s⟩
  | succ fuel ih =>
    rw [copyVectorTo]
    by_cases hempty : data.length = 0
    · exact ⟨data, s, if_pos hempty, .refl s⟩
    rw [if_neg hempty]
    have hsame := sameInput_writeSome s data
    generalize IOutputStream.writeSome s data = taken at hsame
    obtain ⟨count, s₁⟩ := taken
    dsimp only at hsame ⊢
    by_cases hcount : count = 0
    · exact ⟨_, s₁, if_pos hcount, hsame⟩
    · have hle : (data.drop count).length ≤ fuel := by
        rw [List.length_drop]
        omega
      obtain ⟨data', s', hok, hsame'⟩ := ih s₁ hle
      exact ⟨data', s', by rw [if_neg hcount, hok], hsame.trans hsame'⟩

theorem writeResponses_socket (responses : List Bytes) (s : TCPSocket) :
    ∃ responses' s', writeResponses responses s = .ok (responses', s') ∧ SameInput s s' := by
  induction responses generalizing s with
  | nil => exact ⟨[], s, rfl, .refl s⟩
  | cons front responses ih =>
    obtain ⟨front', s₁, hcopy, hsame⟩ := copyVectorTo_socket s (Nat.le_refl front.length)
    obtain ⟨responses', s', hok, hsame'⟩ := ih s₁
    by_cases hleft : front'.length ≠ 0
    · refine ⟨front' :: responses, s₁, ?_, hsame⟩
      rw [writeResponses]
      simp only [bind_eq_ok_iff]
      exact ⟨_, hcopy, if_pos hleft⟩
    · refine ⟨responses', s', ?_, hsame.trans hsame'⟩
      rw [writeResponses]
      simp only [bind_eq_ok_iff]
      exact ⟨_, hcopy, by rw [if_neg hleft, hok]⟩

/-- What `write` can change: the responses and the socket, whose input it drops for a shutdown
only. -/
theorem write_eq (c : P2PClient) : ∃ responses sock, c.write = .ok { c with responses, sock } ∧
    sock.isOpen = c.sock.isOpen ∧ (c.waitingShutdown = false → SameInput c.sock sock) := by
  obtain ⟨responses, sock, hok, hsame⟩ := writeResponses_socket c.responses c.sock
  by_cases hshutdown : responses = [] ∧ c.waitingShutdown = true
  · refine ⟨responses, sock.shutdownBoth, ?_, ?_, fun hnot ↦ ?_⟩
    · simp only [write, bind_eq_ok_iff]
      exact ⟨_, hok, if_pos hshutdown⟩
    · rw [TCPSocket.shutdownBoth]
      split
      · exact hsame.isOpen
      · exact hsame.isOpen
    · rw [hshutdown.2] at hnot
      cases hnot
  · refine ⟨responses, sock, ?_, hsame.isOpen, fun _ ↦ hsame⟩
    simp only [write, bind_eq_ok_iff]
    exact ⟨_, hok, if_neg hshutdown⟩

theorem Sound.withOutput (h : Sound fmt c) (responses : List Bytes) (sock : TCPSocket) :
    Sound fmt { c with responses, sock } :=
  ⟨h.buffer, h.header, h.body, h.stream_le⟩

/-- `send`, and several in turn, can change no more than `write`. -/
theorem sendAll_eq (bodies : List Bytes) (c : P2PClient) : ∃ responses sock,
    c.sendAll bodies = .ok { c with responses, sock } ∧ sock.isOpen = c.sock.isOpen ∧
      (c.waitingShutdown = false → SameInput c.sock sock) := by
  induction bodies generalizing c with
  | nil => exact ⟨c.responses, c.sock, rfl, rfl, fun _ ↦ .refl c.sock⟩
  | cons body bodies ih =>
    obtain ⟨responses₁, sock₁, hsend, hopen, hsame⟩ :=
      write_eq { c with responses := c.responses ++ [body] }
    obtain ⟨responses, sock, hok, hopen', hsame'⟩ :=
      ih { c with responses := responses₁, sock := sock₁ }
    refine ⟨responses, sock, ?_, hopen'.trans hopen, fun hnot ↦ (hsame hnot).trans (hsame' hnot)⟩
    unfold P2PClient.sendAll
    rw [List.foldlM_cons, P2PClient.send, bind_of_ok hsend]
    exact hok

theorem Sound.disconnect (h : Sound fmt c) (banReason : String) :
    Sound fmt (c.disconnect banReason) where
  buffer := h.buffer.clear
  header hreceiving := by cases hreceiving
  body hreceiving := by cases hreceiving
  stream_le hreceiving := by cases hreceiving

theorem held_disconnect (c : P2PClient) (banReason : String) :
    (c.disconnect banReason).held = [] := by
  rw [held, disconnect, CircularBuffer.contents_clear]
  rfl

theorem SameInput.held_eq {sock : TCPSocket} (h : SameInput c.sock sock) (responses : List Bytes) :
    ({ c with responses, sock } : P2PClient).held = c.held := by
  rw [held, held, h.incoming]

/-! ## Reading -/

/-- `copy_from` on the socket of a client. -/
theorem Sound.copyFrom (h : Sound fmt c) : ∃ buffer sock taken,
    c.buffer.copyFrom c.sock = .ok (buffer, sock) ∧ buffer.Sound recommendedBufferSize ∧
      sock.isOpen = c.sock.isOpen ∧ sock.askedShutdown = c.sock.askedShutdown ∧
        c.sock.incoming.flatten = taken ++ sock.incoming.flatten ∧
          buffer.contents = c.buffer.contents ++ taken ∧
            (buffer.contents.length = recommendedBufferSize ∨ sock.incoming.flatten = []) := by
  obtain ⟨buffer, sock, taken, hok, hsound, hrest, hcontents, hstop, hkeeps⟩ :=
    h.buffer.copyFrom c.sock
  obtain ⟨hopen, hasked⟩ := hkeeps
    (fun s ↦ s.isOpen = c.sock.isOpen ∧ s.askedShutdown = c.sock.askedShutdown)
    (fun _ _ hs ↦ hs) ⟨rfl, rfl⟩
  exact ⟨buffer, sock, taken, hok, hsound, hopen, hasked, hrest, hcontents,
    hstop.imp_right flatten_of_dry⟩

section Round

variable {requestReady : P2PClient → Except Fault P2PClient} {count : ℕ} {buffer : CircularBuffer}
  {stream : VectorStream}
  (hle : c.receivingBodyStream.buffer.length ≤ c.requestBodyLength)
  (hcopy : c.buffer.copyTo c.receivingBodyStream
    (c.requestBodyLength - c.receivingBodyStream.buffer.length) = .ok (count, buffer, stream))
include hle hcopy

theorem readBody_full (fuel : ℕ) (hfull : stream.buffer.length = c.requestBodyLength) :
    P2PClient.readBody requestReady fuel c =
      requestReady { c with buffer, receivingBodyStream := stream } := by
  unfold P2PClient.readBody
  rw [bind_of_ok (a := ()) (invariant_eq_ok_iff.2 hle), bind_of_ok hcopy]
  exact if_pos hfull

variable {buffer₂ : CircularBuffer} {sock : TCPSocket}
  (hnot : stream.buffer.length ≠ c.requestBodyLength)
  (hfrom : buffer.copyFrom c.sock = .ok (buffer₂, sock))
include hnot hfrom

theorem readBody_empty (fuel : ℕ) (hnone : buffer₂.size = 0) :
    P2PClient.readBody requestReady fuel c =
      .ok { c with receivingBodyStream := stream, buffer := buffer₂, sock } := by
  unfold P2PClient.readBody
  rw [bind_of_ok (a := ()) (invariant_eq_ok_iff.2 hle), bind_of_ok hcopy]
  dsimp only
  rw [if_neg hnot, bind_of_ok hfrom]
  exact if_pos hnone

theorem readBody_more (fuel : ℕ) (hsome : buffer₂.size ≠ 0) :
    P2PClient.readBody requestReady (fuel + 1) c = P2PClient.readBody requestReady fuel
      { c with receivingBodyStream := stream, buffer := buffer₂, sock } := by
  conv_lhs => unfold P2PClient.readBody
  rw [bind_of_ok (a := ()) (invariant_eq_ok_iff.2 hle), bind_of_ok hcopy]
  dsimp only
  rw [if_neg hnot, bind_of_ok hfrom]
  exact if_neg hsome

end Round

/-- One round of `readBody`: the body is complete, or nothing is left, or there is more to read. -/
theorem Sound.readBodyRound (h : Sound fmt c) (hreceiving : c.receivingBody = true) (fuel : ℕ)
    (requestReady : P2PClient → Except Fault P2PClient) :
    ∃ c', Sound fmt c' ∧ Keeps c c' ∧ c'.held = c.held ∧
      (P2PClient.readBody requestReady fuel c = requestReady c' ∧ Complete c' ∨
        P2PClient.readBody requestReady fuel c = .ok c' ∧ Waiting fmt c' ∨
        c'.receivingBody = true ∧ c'.buffer.contents ≠ [] ∧
          c'.buffer.contents.length + c'.sock.incoming.flatten.length =
            c.sock.incoming.flatten.length ∧
          ∀ fuel', fuel = fuel' + 1 → P2PClient.readBody requestReady fuel c =
            P2PClient.readBody requestReady fuel' c') := by
  have hlength := h.header hreceiving
  have hbody := h.body hreceiving
  have hle := h.stream_le hreceiving
  obtain ⟨buffer, stream, given, hcopy, hsound, hwritten, hcontents, hgiven, hstop⟩ :=
    h.buffer.copyTo c.receivingBodyStream
      (c.requestBodyLength - c.receivingBodyStream.buffer.length)
  change stream.buffer = c.receivingBodyStream.buffer ++ given at hwritten
  have hstream : stream.buffer.length ≤ c.requestBodyLength := by
    rw [hwritten, List.length_append]
    omega
  have hheld : c.held = c.request ++ (stream.buffer ++
      (buffer.contents ++ c.sock.incoming.flatten)) := by
    rw [held, if_pos hreceiving, hcontents, hwritten]
    simp only [List.append_assoc]
  by_cases hfull : stream.buffer.length = c.requestBodyLength
  · refine ⟨{ c with buffer, receivingBodyStream := stream },
      ⟨hsound, h.header, h.body, fun _ ↦ hstream⟩, ⟨rfl, rfl, rfl, rfl, rfl⟩, ?_,
      Or.inl ⟨readBody_full hle hcopy fuel hfull, hreceiving, hfull⟩⟩
    rw [hheld, held, if_pos hreceiving, List.append_assoc]
  -- the body takes all that there is in the buffer
  have hempty : buffer.contents = [] := by
    rcases hstop with hcount | hnil | hrefuses
    · refine absurd ?_ hfull
      rw [hwritten, List.length_append]
      omega
    · exact hnil
    · exact absurd hrefuses (not_refuses_vectorStream stream)
  have hsound₁ : Sound fmt { c with buffer, receivingBodyStream := stream } :=
    ⟨hsound, h.header, h.body, fun _ ↦ hstream⟩
  obtain ⟨buffer₂, sock, taken, hfrom, hsound₂, hopen, hasked, hrest, hcontents₂, hdry⟩ :=
    hsound₁.copyFrom
  dsimp only at hfrom hopen hasked hrest hcontents₂
  rw [hempty, List.nil_append] at hcontents₂
  refine ⟨{ c with receivingBodyStream := stream, buffer := buffer₂, sock },
    ⟨hsound₂, h.header, h.body, fun _ ↦ hstream⟩, ⟨rfl, rfl, rfl, hopen, hasked⟩, ?_, Or.inr ?_⟩
  · rw [hheld, held, if_pos hreceiving, hempty, List.nil_append, hrest, hcontents₂,
      List.append_assoc]
  by_cases hnone : buffer₂.size = 0
  · left
    refine ⟨readBody_empty hle hcopy hfull hfrom fuel hnone, Or.inr ⟨c.requestBodyLength, ?_⟩,
      fun hcomplete ↦ hfull hcomplete.length_eq⟩
    rw [hsound₂.size_eq, List.length_eq_zero_iff] at hnone
    have hnothing : sock.incoming.flatten = [] := by
      refine hdry.resolve_left fun hcapacity ↦ ?_
      rw [hnone] at hcapacity
      cases hcapacity
    rw [held, if_pos hreceiving]
    dsimp only
    rw [hnone, hnothing, List.append_nil, List.append_nil, List.take_left' hlength,
      List.length_append, hlength]
    exact ⟨hbody, by omega⟩
  · right
    refine ⟨hreceiving, fun hnil ↦ hnone (by rw [hsound₂.size_eq, hnil]; rfl), ?_, ?_⟩
    · dsimp only
      rw [hrest, hcontents₂, List.length_append]
    · rintro fuel' rfl
      exact readBody_more hle hcopy hfull hfrom fuel' hnone

/-- The rounds of `readBody` come to a complete request or use up what there is. -/
theorem Sound.readBody (h : Sound fmt c) (hreceiving : c.receivingBody = true) {fuel : ℕ}
    (hfuel : c.buffer.contents.length + c.sock.incoming.flatten.length ≤ fuel ∨
      c.buffer.contents ≠ [] ∧
        c.buffer.contents.length + c.sock.incoming.flatten.length ≤ fuel + 1)
    (requestReady : P2PClient → Except Fault P2PClient) :
    ∃ c', Sound fmt c' ∧ Keeps c c' ∧ c'.held = c.held ∧
      (P2PClient.readBody requestReady fuel c = requestReady c' ∧ Complete c' ∨
        P2PClient.readBody requestReady fuel c = .ok c' ∧ Waiting fmt c') := by
  induction fuel generalizing c with
  | zero =>
    obtain ⟨c', hsound, hkeeps, hheld, hround⟩ := h.readBodyRound hreceiving 0 requestReady
    refine ⟨c', hsound, hkeeps, hheld, ?_⟩
    rcases hround with hready | hwaits | ⟨-, hne, hlength, -⟩
    · exact Or.inl hready
    · exact Or.inr hwaits
    · -- there was nothing outside the buffer to go on with
      have hnone := List.length_pos_iff.2 hne
      have hbuffer : c.buffer.contents ≠ [] → 0 < c.buffer.contents.length := List.length_pos_iff.2
      rcases hfuel with hfuel | ⟨hcontents, hfuel⟩
      · omega
      · have hpos := hbuffer hcontents
        omega
  | succ fuel ih =>
    obtain ⟨c', hsound, hkeeps, hheld, hround⟩ :=
      h.readBodyRound hreceiving (fuel + 1) requestReady
    rcases hround with hready | hwaits | ⟨hreceiving', hne, hlength, hmore⟩
    · exact ⟨c', hsound, hkeeps, hheld, Or.inl hready⟩
    · exact ⟨c', hsound, hkeeps, hheld, Or.inr hwaits⟩
    · have hle : c'.buffer.contents.length + c'.sock.incoming.flatten.length ≤ fuel + 1 := by
        rcases hfuel with hfuel | ⟨hcontents, hfuel⟩
        · omega
        · have hpos : 0 < c.buffer.contents.length := List.length_pos_iff.2 hcontents
          omega
      obtain ⟨c₂, hsound₂, hkeeps₂, hheld₂, hend⟩ := ih hsound hreceiving' (Or.inr ⟨hne, hle⟩)
      rw [hmore fuel rfl]
      exact ⟨c₂, hsound₂, hkeeps.trans hkeeps₂, hheld₂.trans hheld, hend⟩

theorem Sound.unread_eq (h : Sound fmt c) :
    c.unread = c.buffer.contents.length + c.sock.incoming.flatten.length := by
  rw [unread, h.buffer.size_eq]
  rfl

/-- What is held is pending. -/
theorem Sound.length_held_le (h : Sound fmt c) : c.held.length ≤ c.pending := by
  rw [held, pending, h.unread_eq, List.length_append, List.length_append]
  by_cases hreceiving : c.receivingBody = true
  · rw [if_pos hreceiving, List.length_append]
  · rw [if_neg hreceiving, List.length_nil]
    omega

/-- What reading comes to: a request, or a wait for more bytes or for responses to leave, or a
header that is refused. -/
inductive Reads (fmt : HeaderFormat) (requestReady : P2PClient → Except Fault P2PClient)
    (c : P2PClient) (result : Except Fault P2PClient) : Prop
  | ready (c' : P2PClient) (sound : Sound fmt c') (keeps : Keeps c c') (held : c'.held = c.held)
    (complete : Complete c') (eq : result = requestReady c')
  | waits (c' : P2PClient) (sound : Sound fmt c') (keeps : Keeps c c') (held : c'.held = c.held)
    (waiting : 1 < c'.responses.length ∨ Waiting fmt c') (eq : result = .ok c')
  | refused (c' : P2PClient) (banReason : String) (sound : Sound fmt c') (keeps : Keeps c c')
    (refused : Refused fmt.toFormat banReason c.held) (eq : result = .ok (c'.disconnect banReason))

theorem Sound.reads (h : Sound fmt c) (requestReady : P2PClient → Except Fault P2PClient) :
    Reads fmt requestReady c (c.read fmt requestReady) := by
  -- the rounds of the body, where the header is there
  have hbody : ∀ {c₁ : P2PClient}, Sound fmt c₁ → c₁.receivingBody = true → Keeps c c₁ →
      c₁.held = c.held → c.read fmt requestReady = P2PClient.readBody requestReady c₁.unread c₁ →
        Reads fmt requestReady c (c.read fmt requestReady) := by
    intro c₁ h₁ hreceiving hkeeps hheld heq
    obtain ⟨c', hsound, hkeeps', hheld', hend⟩ :=
      h₁.readBody hreceiving (Or.inl h₁.unread_eq.ge) requestReady
    rcases hend with ⟨hok, hcomplete⟩ | ⟨hok, hwaiting⟩
    · exact .ready c' hsound (hkeeps.trans hkeeps') (hheld'.trans hheld) hcomplete (heq.trans hok)
    · exact .waits c' hsound (hkeeps.trans hkeeps') (hheld'.trans hheld) (Or.inr hwaiting)
        (heq.trans hok)
  cases hreceiving : c.receivingBody with
  | true =>
    refine hbody h hreceiving (.refl c) rfl ?_
    rw [P2PClient.read, if_pos hreceiving]
  | false =>
    obtain ⟨buffer, sock, taken, hfrom, hbuffer, hopen, hasked, hrest, hcontents, hdry⟩ :=
      h.copyFrom
    have hnot : ¬ c.receivingBody = true := by
      rw [hreceiving]
      decide
    have hheld : c.held = buffer.contents ++ sock.incoming.flatten := by
      rw [held, if_neg hnot, List.nil_append, hrest, hcontents, List.append_assoc]
    by_cases hshort : buffer.size < fmt.headerSize
    · -- the buffer has room for a header, so the socket is empty
      have hnothing : sock.incoming.flatten = [] := by
        refine hdry.resolve_left fun hfull ↦ ?_
        have hsize := fmt.headerSize_le
        rw [hbuffer.size_eq] at hshort
        omega
      refine .waits { c with buffer, sock } ⟨hbuffer, h.header, h.body, h.stream_le⟩
        ⟨rfl, rfl, rfl, hopen, hasked⟩ ?_
        (Or.inr ⟨?_, fun hcomplete ↦ hnot hcomplete.receiving⟩) ?_
      · rw [hheld, held, if_neg hnot]
        rfl
      · left
        rw [held, if_neg hnot]
        dsimp only
        rw [hnothing, List.nil_append, List.append_nil, ← hbuffer.size_eq]
        exact hshort
      · rw [P2PClient.read, if_neg hnot, bind_of_ok hfrom]
        exact if_pos hshort
    · have hle : fmt.headerSize ≤ buffer.contents.length := by
        rw [← hbuffer.size_eq]
        exact Nat.not_lt.1 hshort
      obtain ⟨buffer', hread, hbuffer', hcontents'⟩ := hbuffer.read hle
      have hlength : (buffer.contents.take fmt.headerSize).length = fmt.headerSize := by
        rw [List.length_take, Nat.min_eq_left hle]
      have hsplit : buffer.contents = buffer.contents.take fmt.headerSize ++ buffer'.contents := by
        rw [hcontents', List.take_append_drop]
      cases hheader : fmt.bodyLength (buffer.contents.take fmt.headerSize) with
      | error banReason =>
        refine .refused
          { c with buffer := buffer', sock, request := buffer.contents.take fmt.headerSize }
          banReason ⟨hbuffer', fun hyes ↦ absurd hyes hnot, fun hyes ↦ absurd hyes hnot,
            fun hyes ↦ absurd hyes hnot⟩ ⟨rfl, rfl, rfl, hopen, hasked⟩ ⟨?_, ?_⟩ ?_
        · rw [hheld, List.length_append]
          omega
        · rw [hheld, List.take_append_of_le_length hle, hheader]
        · rw [P2PClient.read, if_neg hnot, bind_of_ok hfrom]
          dsimp only
          rw [if_neg hshort, bind_of_ok hread]
          dsimp only
          rw [hheader]
          rfl
      | ok length =>
        have hsound : Sound fmt { c with
            buffer := buffer', sock
            request := buffer.contents.take fmt.headerSize
            requestBodyLength := length
            receivingBody := true
            receivingBodyStream := {} } :=
          ⟨hbuffer', fun _ ↦ hlength, fun _ ↦ hheader, fun _ ↦ Nat.zero_le _⟩
        refine hbody hsound rfl ⟨rfl, rfl, rfl, hopen, hasked⟩ ?_ ?_
        · rw [hheld, held, if_pos rfl]
          dsimp only
          rw [List.append_nil, ← List.append_assoc, ← hsplit]
        · rw [P2PClient.read, if_neg hnot, bind_of_ok hfrom]
          dsimp only
          rw [if_neg hshort, bind_of_ok hread]
          dsimp only
          rw [hheader]

theorem Reads.of_sameHeld {requestReady : P2PClient → Except Fault P2PClient} {c₁ : P2PClient}
    {result : Except Fault P2PClient} (h : Reads fmt requestReady c₁ result) (hkeeps : Keeps c c₁)
    (hheld : c₁.held = c.held) : Reads fmt requestReady c result := by
  cases h with
  | ready c' hsound hkeeps' hheld' hcomplete heq =>
    exact .ready c' hsound (hkeeps.trans hkeeps') (hheld'.trans hheld) hcomplete heq
  | waits c' hsound hkeeps' hheld' hwaiting heq =>
    exact .waits c' hsound (hkeeps.trans hkeeps') (hheld'.trans hheld) hwaiting heq
  | refused c' banReason hsound hkeeps' hrefused heq =>
    exact .refused c' banReason hsound (hkeeps.trans hkeeps') (hheld ▸ hrefused) heq

theorem Sound.advances (h : Sound fmt c) (hshutdown : c.waitingShutdown = false)
    (requestReady : P2PClient → Except Fault P2PClient) :
    Reads fmt requestReady c (c.advanceState fmt requestReady) := by
  obtain ⟨responses, sock, hwrite, hopen, hsame⟩ := write_eq c
  have hinput := hsame hshutdown
  have hkeeps : Keeps c { c with responses, sock } := ⟨rfl, rfl, rfl, hopen, hinput.askedShutdown⟩
  have hsound := h.withOutput responses sock
  have hheld := hinput.held_eq responses
  unfold P2PClient.advanceState
  rw [bind_of_ok hwrite]
  by_cases hbusy : 1 < responses.length
  · exact .waits { c with responses, sock } hsound hkeeps hheld (Or.inl hbusy) (if_pos hbusy)
  · rw [if_neg hbusy]
    exact (hsound.reads requestReady).of_sameHeld hkeeps hheld

/-! ## The next request -/

/-- The client once a request is taken out of it. -/
def emptied (c : P2PClient) : P2PClient :=
  { c with
    request := []
    receivingBodyStream := {}
    receivingBody := false
    requestBodyLength := 0 }

theorem Sound.emptied (h : Sound fmt c) : Sound fmt c.emptied where
  buffer := h.buffer
  header hreceiving := by cases hreceiving
  body hreceiving := by cases hreceiving
  stream_le hreceiving := by cases hreceiving

theorem Complete.held_eq (h : Complete c) :
    c.held = c.request ++ (c.receivingBodyStream.buffer ++ c.emptied.held) := by
  rw [held, if_pos h.receiving, List.append_assoc]
  rfl

theorem readNextRequest_of_complete (hok : c.advanceState fmt .ok = .ok c') (h : Complete c') :
    c.readNextRequest fmt = .ok
      (if c'.waitingShutdown = true then none else some (c'.request, c'.receivingBodyStream.buffer),
        c'.emptied) := by
  have hreceiving : ¬ c'.receivingBody = false := by
    rw [h.receiving]
    decide
  unfold P2PClient.readNextRequest
  rw [bind_of_ok hok, if_neg hreceiving, if_neg (not_not.2 h.length_eq)]
  rfl

theorem readNextRequest_of_not (hok : c.advanceState fmt .ok = .ok c') (h : ¬ Complete c') :
    c.readNextRequest fmt = .ok (none, c') := by
  unfold P2PClient.readNextRequest
  rw [bind_of_ok hok]
  cases hreceiving : c'.receivingBody with
  | false => exact if_pos rfl
  | true =>
    rw [if_neg (by decide), if_pos fun heq ↦ h ⟨hreceiving, heq⟩]
    rfl

/-- What `read_next_request` comes to while no shutdown waits. -/
inductive Next (fmt : HeaderFormat) (c : P2PClient) : Prop
  | request (r : Request) (c' : P2PClient) (sound : Sound fmt c') (keeps : Keeps c c')
    (valid : Valid fmt.toFormat r) (held : c.held = r.1 ++ (r.2 ++ c'.held))
    (eq : c.readNextRequest fmt = .ok (some r, c'))
  | waits (c' : P2PClient) (sound : Sound fmt c') (keeps : Keeps c c') (held : c'.held = c.held)
    (waiting : 1 < c'.responses.length ∨ Waiting fmt c')
    (eq : c.readNextRequest fmt = .ok (none, c'))
  | refused (c' : P2PClient) (banReason : String) (sound : Sound fmt c') (keeps : Keeps c c')
    (refused : Refused fmt.toFormat banReason c.held)
    (eq : c.readNextRequest fmt = .ok (none, c'.disconnect banReason))

theorem Sound.next (h : Sound fmt c) (hshutdown : c.waitingShutdown = false) : Next fmt c := by
  -- a complete request is taken out
  have htake : ∀ {c' : P2PClient}, Sound fmt c' → Keeps c c' → c'.held = c.held → Complete c' →
      c.advanceState fmt .ok = .ok c' → Next fmt c := by
    intro c' hsound hkeeps hheld hcomplete hok
    have hnext := readNextRequest_of_complete hok hcomplete
    have hnot : ¬ c'.waitingShutdown = true := by
      rw [hkeeps.waitingShutdown, hshutdown]
      decide
    rw [if_neg hnot] at hnext
    refine .request (c'.request, c'.receivingBodyStream.buffer) c'.emptied hsound.emptied
      ⟨hkeeps.requests, hkeeps.disconnected, hkeeps.waitingShutdown, hkeeps.isOpen,
        hkeeps.askedShutdown⟩ ⟨hsound.header hcomplete.receiving, ?_⟩ ?_ hnext
    · rw [hsound.body hcomplete.receiving, hcomplete.length_eq]
    · rw [← hheld, hcomplete.held_eq]
  cases h.advances hshutdown .ok with
  | ready c' hsound hkeeps hheld hcomplete heq => exact htake hsound hkeeps hheld hcomplete heq
  | waits c' hsound hkeeps hheld hwaiting heq =>
    by_cases hcomplete : Complete c'
    · exact htake hsound hkeeps hheld hcomplete heq
    · exact .waits c' hsound hkeeps hheld hwaiting (readNextRequest_of_not heq hcomplete)
  | refused c' banReason hsound hkeeps hrefused heq =>
    refine .refused c' banReason hsound hkeeps hrefused (readNextRequest_of_not heq ?_)
    rintro ⟨hreceiving, -⟩
    cases hreceiving

end Naza.P2PClient
