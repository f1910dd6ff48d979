import Naza.P2p.ClientReads

/-!
# Requests do not depend on how the stream is cut

The requests that a client takes out of its socket are the frames of the stream, whatever pieces
the stream arrives in and however slowly the responses leave.
-/

open Lib Lib.Framing

namespace Naza.P2PClient

/-! ## What a connection has to come to -/

/-- Requests handled in turn, after some others, until one of them ends the connection. -/
def serve (react : Handlers) : List Request → List Request → List Request × Ending
  | _, [] => ([], .proceeds)
  | before, r :: requests =>
    match (react (before ++ [r])).ending with
    | .proceeds =>
      let (served, ending) := serve react (before ++ [r]) requests
      (r :: served, ending)
    | ending => ([r], ending)

/-- The requests that are handled of a stream, and what ends the connection. -/
def conversation (fmt : HeaderFormat) (react : Handlers) (stream : Bytes) : List Request × Ending :=
  let (requests, refusal) := frames fmt.toFormat stream
  match serve react [] requests, refusal with
  | (served, .proceeds), some banReason => (served, .disconnects banReason)
  | served, _ => served

/-- The bytes of some arrivals. -/
def streamOf (arrivals : List Arrival) : Bytes := arrivals.flatMap fun e ↦ e.pieces.flatten

variable {fmt : HeaderFormat} {react : Handlers} {c c' : P2PClient}

theorem serve_append (react : Handlers) (before requests requests' : List Request)
    (h : (serve react before requests).2 = .proceeds) :
    serve react before (requests ++ requests') =
      (requests ++ (serve react (before ++ requests) requests').1,
        (serve react (before ++ requests) requests').2) := by
  induction requests generalizing before with
  | nil => rw [List.nil_append, List.append_nil, List.nil_append]
  | cons r requests ih =>
    rw [serve] at h
    rw [List.cons_append, serve]
    cases hending : (react (before ++ [r])).ending with
    | proceeds =>
      rw [hending] at h
      dsimp only at h ⊢
      rw [ih _ h, List.append_assoc, List.singleton_append]
      rfl
    | shutsDown =>
      rw [hending] at h
      cases h
    | disconnects banReason =>
      rw [hending] at h
      cases h

theorem serve_eq (react : Handlers) (requests : List Request)
    (h : (serve react [] requests).2 = .proceeds) :
    serve react [] requests = (requests, .proceeds) := by
  have happend := serve_append react [] requests [] h
  rw [List.append_nil] at happend
  rw [happend, serve, List.append_nil]

/-- One more request, after others that left the connection open. -/
theorem serve_snoc (react : Handlers) (requests : List Request) (r : Request) (more : List Request)
    (h : (serve react [] requests).2 = .proceeds)
    (hends : (react (requests ++ [r])).ending ≠ .proceeds) :
    serve react [] (requests ++ [r] ++ more) =
      (requests ++ [r], (react (requests ++ [r])).ending) := by
  rw [List.append_assoc, serve_append react [] requests _ h, List.nil_append, List.singleton_append,
    serve]
  cases hending : (react (requests ++ [r])).ending with
  | proceeds => exact absurd hending hends
  | shutsDown => rfl
  | disconnects banReason => rfl

theorem serve_snoc_proceeds (react : Handlers) (requests : List Request) (r : Request)
    (h : (serve react [] requests).2 = .proceeds)
    (hproceeds : (react (requests ++ [r])).ending = .proceeds) :
    (serve react [] (requests ++ [r])).2 = .proceeds := by
  rw [serve_append react [] requests _ h, List.nil_append, serve, hproceeds]
  rfl

section Conversation

variable {requests : List Request} (hvalid : ∀ r ∈ requests, Valid fmt.toFormat r)
include hvalid

theorem conversation_incomplete {s : Bytes} (h : (serve react [] requests).2 = .proceeds)
    (hs : Incomplete fmt.toFormat s) :
    conversation fmt react (wire requests ++ s) = (requests, .proceeds) := by
  rw [conversation, frames_wire_append hvalid, hs.frames_eq, List.append_nil]
  dsimp only
  rw [serve_eq react _ h]

theorem conversation_refused {s : Bytes} {banReason : String}
    (h : (serve react [] requests).2 = .proceeds) (hs : Refused fmt.toFormat banReason s) :
    conversation fmt react (wire requests ++ s) = (requests, .disconnects banReason) := by
  rw [conversation, frames_wire_append hvalid, hs.frames_eq, List.append_nil]
  dsimp only
  rw [serve_eq react _ h]

/-- What has been handled is the start of what is handled in the end. -/
theorem start_of_conversation (s : Bytes) (h : (serve react [] requests).2 = .proceeds) :
    requests <+: (conversation fmt react (wire requests ++ s)).1 := by
  rw [conversation, frames_wire_append hvalid]
  dsimp only
  rw [serve_append react [] requests _ h]
  split
  · next heq _ =>
    rw [Prod.mk.injEq] at heq
    exact heq.1 ▸ List.prefix_append _ _
  · exact List.prefix_append _ _

end Conversation

/-- A request whose handler ends the connection is the last one. -/
theorem conversation_ended {requests : List Request} {r : Request}
    (hvalid : ∀ r' ∈ requests ++ [r], Valid fmt.toFormat r') (s : Bytes)
    (h : (serve react [] requests).2 = .proceeds)
    (hends : (react (requests ++ [r])).ending ≠ .proceeds) :
    conversation fmt react (wire (requests ++ [r]) ++ s) =
      (requests ++ [r], (react (requests ++ [r])).ending) := by
  rw [conversation, frames_wire_append hvalid]
  dsimp only
  rw [serve_snoc react requests r _ h hends]
  cases hending : (react (requests ++ [r])).ending with
  | proceeds => exact absurd hending hends
  | shutsDown => rfl
  | disconnects banReason => rfl

/-! ## Handling a request -/

/-- What a handler can change, but for the end of the connection. -/
theorem handle_eq (react : Handlers) (r : Request) (c : P2PClient)
    (hshutdown : c.waitingShutdown = false) : ∃ responses sock, SameInput c.sock sock ∧
      match (react (c.requests ++ [r])).ending with
      | .proceeds =>
        c.handle react r = .ok { c with requests := c.requests ++ [r], responses, sock }
      | .shutsDown => c.handle react r = sendShutdown
          { c with requests := c.requests ++ [r], responses, sock }
      | .disconnects banReason => c.handle react r = .ok (disconnect banReason
          { c with requests := c.requests ++ [r], responses, sock }) := by
  obtain ⟨responses, sock, hok, -, hsame⟩ :=
    sendAll_eq (react (c.requests ++ [r])).responses { c with requests := c.requests ++ [r] }
  refine ⟨responses, sock, hsame hshutdown, ?_⟩
  unfold P2PClient.handle
  dsimp only
  rw [bind_of_ok hok]
  cases (react (c.requests ++ [r])).ending <;> rfl

theorem onRequestReady_of_none (h : c.readNextRequest fmt = .ok (none, c')) (fuel : ℕ) :
    P2PClient.onRequestReady fmt react fuel c = .ok c' := by
  unfold P2PClient.onRequestReady
  rw [bind_of_ok h]
  rfl

/-! ## A shutdown that waits -/

/-- The requests that were taken out before `send_shutdown`. -/
structure Shutting (fmt : HeaderFormat) (requests : List Request) (c : P2PClient) : Prop where
  sound : Sound fmt c
  waitingShutdown : c.waitingShutdown = true
  requests_eq : c.requests = requests

section Shutting

variable {requests : List Request}

theorem Sound.sendShutdown (h : Sound fmt c) :
    ∃ c', c.sendShutdown = .ok c' ∧ Shutting fmt c.requests c' := by
  obtain ⟨responses, sock, hok, -, -⟩ := write_eq { c with waitingShutdown := true }
  exact ⟨_, hok, ⟨h.buffer, h.header, h.body, h.stream_le⟩, rfl, rfl⟩

/-- Reading goes on while a shutdown waits. -/
theorem Shutting.advances (h : Shutting fmt requests c)
    {requestReady : P2PClient → Except Fault P2PClient}
    (hready : ∀ {c : P2PClient}, Shutting fmt requests c →
      ∃ c', requestReady c = .ok c' ∧ Shutting fmt requests c') :
    ∃ c', c.advanceState fmt requestReady = .ok c' ∧ Shutting fmt requests c' := by
  obtain ⟨responses, sock, hwrite, -, -⟩ := write_eq c
  have hsound := h.sound.withOutput responses sock
  have hshutting : Shutting fmt requests { c with responses, sock } :=
    ⟨hsound, h.waitingShutdown, h.requests_eq⟩
  unfold P2PClient.advanceState
  rw [bind_of_ok hwrite]
  by_cases hbusy : 1 < responses.length
  · exact ⟨_, if_pos hbusy, hshutting⟩
  rw [if_neg hbusy]
  have hkept : ∀ {c' : P2PClient}, Sound fmt c' → Keeps { c with responses, sock } c' →
      Shutting fmt requests c' := fun hsound' hkeeps ↦
    ⟨hsound', hkeeps.waitingShutdown.trans h.waitingShutdown,
      hkeeps.requests.trans h.requests_eq⟩
  cases hsound.reads requestReady with
  | ready c' hsound' hkeeps _ _ heq =>
    obtain ⟨c₂, hok, hshutting₂⟩ := hready (hkept hsound' hkeeps)
    exact ⟨c₂, heq.trans hok, hshutting₂⟩
  | waits c' hsound' hkeeps _ _ heq => exact ⟨c', heq, hkept hsound' hkeeps⟩
  | refused c' banReason hsound' hkeeps _ heq =>
    have hshutting' := hkept hsound' hkeeps
    exact ⟨_, heq, hsound'.disconnect banReason, hshutting'.waitingShutdown,
      hshutting'.requests_eq⟩

/-- What is read is dropped while a shutdown waits. -/
theorem Shutting.next (h : Shutting fmt requests c) :
    ∃ c', c.readNextRequest fmt = .ok (none, c') ∧ Shutting fmt requests c' := by
  obtain ⟨c', hok, hshutting⟩ := h.advances fun {c} hc ↦ ⟨c, rfl, hc⟩
  by_cases hcomplete : Complete c'
  · have hnext := readNextRequest_of_complete hok hcomplete
    rw [if_pos hshutting.waitingShutdown] at hnext
    exact ⟨c'.emptied, hnext, hshutting.sound.emptied, hshutting.waitingShutdown,
      hshutting.requests_eq⟩
  · exact ⟨c', readNextRequest_of_not hok hcomplete, hshutting⟩

theorem Shutting.onRequestReady (h : Shutting fmt requests c) (fuel : ℕ) :
    ∃ c', P2PClient.onRequestReady fmt react fuel c = .ok c' ∧ Shutting fmt requests c' := by
  obtain ⟨c', hnext, hshutting⟩ := h.next
  exact ⟨c', onRequestReady_of_none hnext fuel, hshutting⟩

theorem Shutting.step (h : Shutting fmt requests c) (e : Arrival) :
    ∃ c', P2PClient.step fmt react c e = .ok c' ∧ Shutting fmt requests c' := by
  unfold P2PClient.step
  by_cases hclosed : c.sock.isOpen = false
  · exact ⟨c, if_pos hclosed, h⟩
  rw [if_neg hclosed]
  obtain ⟨responses, sock, hsend, -, -⟩ :=
    sendAll_eq e.messages { c with sock := c.sock.arrive e.pieces e.room }
  rw [bind_of_ok hsend]
  have hshutting : Shutting fmt requests { c with responses, sock } :=
    ⟨h.sound.withOutput responses sock, h.waitingShutdown, h.requests_eq⟩
  exact hshutting.advances fun hc ↦ hc.onRequestReady _

end Shutting

/-! ## The connection -/

/-- A connection that neither side has ended: the stream so far is the requests that were taken out
and the bytes that are held. -/
structure Live (fmt : HeaderFormat) (react : Handlers) (stream : Bytes) (c : P2PClient) : Prop where
  sound : Sound fmt c
  isOpen : c.sock.isOpen = true
  askedShutdown : c.sock.askedShutdown = false
  waitingShutdown : c.waitingShutdown = false
  disconnected : c.disconnected = []
  valid : ∀ r ∈ c.requests, Valid fmt.toFormat r
  serves : (serve react [] c.requests).2 = .proceeds
  stream_eq : stream = wire c.requests ++ c.held

/-- What a client has come to between two calls. -/
inductive Tracks (fmt : HeaderFormat) (react : Handlers) (stream : Bytes) (c : P2PClient) : Prop
  | live (live : Live fmt react stream c) (waiting : 1 < c.responses.length ∨ Waiting fmt c)
  | closed (banReason : String) (isOpen : c.sock.isOpen = false)
    (disconnected : c.disconnected = [banReason])
    (ends : ∀ more, conversation fmt react (stream ++ more) = (c.requests, .disconnects banReason))
  | shutting (shutting : Shutting fmt c.requests c)
    (ends : ∀ more, conversation fmt react (stream ++ more) = (c.requests, .shutsDown))

variable {stream : Bytes}

theorem Live.of_keeps (h : Live fmt react stream c) (hsound : Sound fmt c') (hkeeps : Keeps c c')
    (hheld : c'.held = c.held) : Live fmt react stream c' where
  sound := hsound
  isOpen := hkeeps.isOpen.trans h.isOpen
  askedShutdown := hkeeps.askedShutdown.trans h.askedShutdown
  waitingShutdown := hkeeps.waitingShutdown.trans h.waitingShutdown
  disconnected := hkeeps.disconnected.trans h.disconnected
  valid := hkeeps.requests ▸ h.valid
  serves := hkeeps.requests ▸ h.serves
  stream_eq := by rw [hkeeps.requests, hheld, ← h.stream_eq]

/-- The client is banned for a header that is refused. -/
theorem Live.refused (h : Live fmt react stream c) {banReason : String} (hkeeps : Keeps c c')
    (hrefused : Refused fmt.toFormat banReason c.held) :
    Tracks fmt react stream (c'.disconnect banReason) := by
  refine .closed banReason rfl ?_ fun more ↦ ?_
  · change c'.disconnected ++ [banReason] = _
    rw [hkeeps.disconnected, h.disconnected, List.nil_append]
  · rw [h.stream_eq, List.append_assoc,
      conversation_refused h.valid h.serves (hrefused.append more)]
    change _ = (c'.requests, _)
    rw [hkeeps.requests]

/-- There is nothing left to read after a disconnect. -/
theorem onRequestReady_closed (h : Sound fmt c) (hshutdown : c.waitingShutdown = false)
    (hheld : c.held = []) (fuel : ℕ) :
    ∃ c', P2PClient.onRequestReady fmt react fuel c = .ok c' ∧ Keeps c c' := by
  have hpos := fmt.headerSize_pos
  cases h.next hshutdown with
  | request r c' _ _ hvalid hheld' _ =>
    have hlength := congrArg List.length (hheld.symm.trans hheld')
    rw [List.length_append, List.length_nil, hvalid.header] at hlength
    omega
  | waits c' _ hkeeps _ _ heq => exact ⟨c', onRequestReady_of_none heq fuel, hkeeps⟩
  | refused c' banReason _ _ hrefused _ =>
    have hle := hrefused.1
    rw [hheld, List.length_nil] at hle
    omega

/-- The handler of one more request, and the calls that follow it. -/
theorem Live.handle (h : Live fmt react stream c) {r : Request} (hvalid : Valid fmt.toFormat r)
    (hsound : Sound fmt c') (hkeeps : Keeps c c') (hheld : c.held = r.1 ++ (r.2 ++ c'.held)) :
    ∃ c₂, P2PClient.handle react r c' = .ok c₂ ∧
      (Live fmt react stream c₂ ∧ c₂.held = c'.held ∨
        ∀ fuel, ∃ c₃, P2PClient.onRequestReady fmt react fuel c₂ = .ok c₃ ∧
          Tracks fmt react stream c₃) := by
  have hopen := hkeeps.isOpen.trans h.isOpen
  have hasked := hkeeps.askedShutdown.trans h.askedShutdown
  have hshutdown := hkeeps.waitingShutdown.trans h.waitingShutdown
  have hdisconnected := hkeeps.disconnected.trans h.disconnected
  have hvalid' : ∀ r' ∈ c.requests ++ [r], Valid fmt.toFormat r' := by
    intro r' hmem
    rcases List.mem_append.1 hmem with hbefore | hlast
    · exact h.valid r' hbefore
    · rw [List.mem_singleton.1 hlast]
      exact hvalid
  have hstream : stream = wire (c.requests ++ [r]) ++ c'.held := by
    rw [h.stream_eq, hheld, wire_append, wire_cons, wire_nil, List.append_nil, List.append_assoc,
      List.append_assoc]
  obtain ⟨responses, sock, hsame, hhandle⟩ := handle_eq react r c' hshutdown
  rw [hkeeps.requests] at hhandle
  have hended : ∀ ending ≠ .proceeds, (react (c.requests ++ [r])).ending = ending → ∀ more,
      conversation fmt react (wire (c.requests ++ [r]) ++ c'.held ++ more) =
        (c.requests ++ [r], ending) := by
    rintro ending hne rfl more
    rw [List.append_assoc]
    exact conversation_ended hvalid' (c'.held ++ more) h.serves hne
  rw [hstream]
  cases hending : (react (c.requests ++ [r])).ending with
  | proceeds =>
    rw [hending] at hhandle
    refine ⟨_, hhandle, Or.inl ⟨⟨⟨hsound.buffer, hsound.header, hsound.body, hsound.stream_le⟩,
      hsame.isOpen.trans hopen, hsame.askedShutdown.trans hasked, hshutdown, hdisconnected, hvalid',
      serve_snoc_proceeds react c.requests r h.serves hending, ?_⟩, hsame.held_eq responses⟩⟩
    rw [← hsame.held_eq responses]
    rfl
  | shutsDown =>
    rw [hending] at hhandle
    have hsound₁ : Sound fmt { c' with requests := c.requests ++ [r], responses, sock } :=
      ⟨hsound.buffer, hsound.header, hsound.body, hsound.stream_le⟩
    obtain ⟨c₂, hok, hshutting⟩ := hsound₁.sendShutdown
    refine ⟨c₂, hhandle.trans hok, Or.inr fun fuel ↦ ?_⟩
    obtain ⟨c₃, hready, hshutting₃⟩ := hshutting.onRequestReady fuel
    have hrequests := hshutting₃.requests_eq
    refine ⟨c₃, hready, .shutting (hrequests ▸ hshutting₃) fun more ↦ ?_⟩
    rw [hended .shutsDown (by decide) hending more, hrequests]
  | disconnects banReason =>
    rw [hending] at hhandle
    refine ⟨_, hhandle, Or.inr fun fuel ↦ ?_⟩
    have hsound₁ : Sound fmt { c' with requests := c.requests ++ [r], responses, sock } :=
      ⟨hsound.buffer, hsound.header, hsound.body, hsound.stream_le⟩
    obtain ⟨c₃, hready, hkeeps₃⟩ := onRequestReady_closed
      (hsound₁.disconnect banReason) hshutdown (held_disconnect _ banReason) fuel
    refine ⟨c₃, hready, .closed banReason hkeeps₃.isOpen (hkeeps₃.disconnected.trans ?_)
      fun more ↦ ?_⟩
    · change c'.disconnected ++ [banReason] = _
      rw [hdisconnected, List.nil_append]
    · rw [hended (.disconnects banReason) (by rintro ⟨⟩) hending more, hkeeps₃.requests]
      rfl

/-- A request is taken out, or the connection waits or ends. -/
theorem Live.next (h : Live fmt react stream c) :
    (∃ r c', Sound fmt c' ∧ Keeps c c' ∧ Valid fmt.toFormat r ∧
      c.held = r.1 ++ (r.2 ++ c'.held) ∧ c.readNextRequest fmt = .ok (some r, c')) ∨
    ∃ c', c.readNextRequest fmt = .ok (none, c') ∧ Tracks fmt react stream c' := by
  cases h.sound.next h.waitingShutdown with
  | request r c' hsound hkeeps hvalid hheld heq =>
    exact Or.inl ⟨r, c', hsound, hkeeps, hvalid, hheld, heq⟩
  | waits c' hsound hkeeps hheld hwaiting heq =>
    exact Or.inr ⟨c', heq, .live (h.of_keeps hsound hkeeps hheld) hwaiting⟩
  | refused c' banReason hsound hkeeps hrefused heq =>
    exact Or.inr ⟨_, heq, h.refused hkeeps hrefused⟩

/-- `on_request_ready` takes out what is complete, until the connection ends or waits. -/
theorem Live.onRequestReady (h : Live fmt react stream c) {fuel : ℕ}
    (hfuel : c.held.length ≤ fuel) :
    ∃ c', P2PClient.onRequestReady fmt react fuel c = .ok c' ∧ Tracks fmt react stream c' := by
  have hpos := fmt.headerSize_pos
  induction fuel generalizing c with
  | zero =>
    rcases h.next with ⟨r, c', hsound, hkeeps, hvalid, hheld, heq⟩ | ⟨c', heq, htracks⟩
    · rw [hheld, List.length_append, hvalid.header] at hfuel
      omega
    · exact ⟨c', onRequestReady_of_none heq 0, htracks⟩
  | succ fuel ih =>
    rcases h.next with ⟨r, c', hsound, hkeeps, hvalid, hheld, heq⟩ | ⟨c', heq, htracks⟩
    · obtain ⟨c₂, hhandle, hnext⟩ := h.handle hvalid hsound hkeeps hheld
      rw [P2PClient.onRequestReady, bind_of_ok heq]
      dsimp only
      rw [bind_of_ok hhandle]
      rcases hnext with ⟨hlive, hheld₂⟩ | hended
      · refine ih hlive ?_
        rw [hheld, List.length_append, List.length_append, hvalid.header] at hfuel
        rw [hheld₂]
        omega
      · exact hended fuel
    · exact ⟨c', onRequestReady_of_none heq (fuel + 1), htracks⟩

/-! ## Runs -/

theorem held_arrive (c : P2PClient) (hasked : c.sock.askedShutdown = false) (pieces : List Bytes)
    (room : List ℕ) :
    ({ c with sock := c.sock.arrive pieces room } : P2PClient).held = c.held ++ pieces.flatten := by
  have hincoming : (c.sock.arrive pieces room).incoming = c.sock.incoming ++ pieces := by
    rw [TCPSocket.arrive, hasked]
    rfl
  rw [held, held]
  dsimp only
  rw [hincoming, List.flatten_append, List.append_assoc, List.append_assoc]

/-- One call from the run loop. -/
theorem Tracks.step (h : Tracks fmt react stream c) (e : Arrival) :
    ∃ c', P2PClient.step fmt react c e = .ok c' ∧
      Tracks fmt react (stream ++ e.pieces.flatten) c' := by
  cases h with
  | live h _ =>
    have hopen : ¬ c.sock.isOpen = false := by
      rw [h.isOpen]
      decide
    have hheld := held_arrive c h.askedShutdown e.pieces e.room
    obtain ⟨responses, sock, hsend, hsock, hsame⟩ :=
      sendAll_eq e.messages { c with sock := c.sock.arrive e.pieces e.room }
    have hinput := hsame h.waitingShutdown
    have hlive : Live fmt react (stream ++ e.pieces.flatten) { c with responses, sock } := by
      refine ⟨h.sound.withOutput responses sock, hsock.trans h.isOpen,
        hinput.askedShutdown.trans h.askedShutdown, h.waitingShutdown, h.disconnected, h.valid,
        h.serves, ?_⟩
      rw [h.stream_eq, List.append_assoc, ← hheld, ← hinput.held_eq responses]
    unfold P2PClient.step
    rw [if_neg hopen, bind_of_ok hsend]
    cases hlive.sound.advances hlive.waitingShutdown
      (fun c ↦ P2PClient.onRequestReady fmt react c.pending c) with
    | ready c' hsound hkeeps hheld' _ heq =>
      have hlive' := hlive.of_keeps hsound hkeeps hheld'
      obtain ⟨c₂, hready, htracks⟩ := hlive'.onRequestReady hsound.length_held_le
      exact ⟨c₂, heq.trans hready, htracks⟩
    | waits c' hsound hkeeps hheld' hwaiting heq =>
      exact ⟨c', heq, .live (hlive.of_keeps hsound hkeeps hheld') hwaiting⟩
    | refused c' banReason _ hkeeps hrefused heq => exact ⟨_, heq, hlive.refused hkeeps hrefused⟩
  | closed banReason hclosed hdisconnected hends =>
    refine ⟨c, if_pos hclosed, .closed banReason hclosed hdisconnected fun more ↦ ?_⟩
    rw [List.append_assoc]
    exact hends _
  | shutting hshutting hends =>
    obtain ⟨c', hok, hshutting'⟩ := hshutting.step e
    have hrequests := hshutting'.requests_eq
    refine ⟨c', hok, .shutting (hrequests ▸ hshutting') fun more ↦ ?_⟩
    rw [List.append_assoc, hrequests]
    exact hends _

theorem tracks_nil (fmt : HeaderFormat) (react : Handlers) : Tracks fmt react [] {} := by
  have hsound : Sound fmt {} := ⟨CircularBuffer.sound_make _, fun h ↦ (by cases h),
    fun h ↦ (by cases h), fun h ↦ (by cases h)⟩
  have hheld : ({} : P2PClient).held = [] := by
    rw [held, CircularBuffer.contents_make]
    rfl
  refine .live ⟨hsound, rfl, rfl, rfl, rfl, fun r hmem ↦ (by cases hmem), rfl, hheld.symm⟩
    (Or.inr ⟨?_, fun hcomplete ↦ ?_⟩)
  · rw [hheld]
    exact Or.inl fmt.headerSize_pos
  · cases hcomplete.receiving

/-- Every run keeps to the stream that arrived. -/
theorem run_tracks (fmt : HeaderFormat) (react : Handlers) (arrivals : List Arrival) :
    ∃ c, run fmt react arrivals = .ok c ∧ Tracks fmt react (streamOf arrivals) c := by
  have hfrom : ∀ {stream : Bytes} {c : P2PClient}, Tracks fmt react stream c →
      ∃ c', arrivals.foldlM (P2PClient.step fmt react) c = .ok c' ∧
        Tracks fmt react (stream ++ streamOf arrivals) c' := by
    induction arrivals with
    | nil =>
      intro stream c h
      exact ⟨c, rfl, (List.append_nil stream).symm ▸ h⟩
    | cons e arrivals ih =>
      intro stream c h
      obtain ⟨c₁, hstep, htracks⟩ := h.step e
      obtain ⟨c', hok, htracks'⟩ := ih htracks
      refine ⟨c', ?_, ?_⟩
      · rw [List.foldlM_cons, bind_of_ok hstep, hok]
      · rw [List.append_assoc] at htracks'
        exact htracks'
  exact hfrom (tracks_nil fmt react)

/-- What a client extracts of a stream: the requests of the conversation, up to those that wait for
responses to leave, and the disconnect it ends with, if it does not end with a shutdown. -/
structure Extracts (fmt : HeaderFormat) (react : Handlers) (stream : Bytes) (c : P2PClient) :
    Prop where
  requests_start : c.requests <+: (conversation fmt react stream).1
  requests_eq : c.responses.length ≤ 1 → c.requests = (conversation fmt react stream).1
  disconnected_eq : ∀ banReason, (conversation fmt react stream).2 = .disconnects banReason →
    c.responses.length ≤ 1 → c.disconnected = [banReason]
  connected : (conversation fmt react stream).2 = .proceeds → c.disconnected = []

theorem Tracks.extracts (h : Tracks fmt react stream c) : Extracts fmt react stream c := by
  cases h with
  | live h hwaiting =>
    have hconversation : c.responses.length ≤ 1 →
        conversation fmt react stream = (c.requests, .proceeds) := by
      intro hidle
      have hincomplete := (hwaiting.resolve_left (Nat.not_lt.2 hidle)).incomplete
      rw [h.stream_eq]
      exact conversation_incomplete h.valid h.serves hincomplete
    refine ⟨?_, fun hidle ↦ ?_, fun banReason hends hidle ↦ ?_, fun _ ↦ h.disconnected⟩
    · rw [h.stream_eq]
      exact start_of_conversation h.valid c.held h.serves
    · rw [hconversation hidle]
    · rw [hconversation hidle] at hends
      cases hends
  | closed banReason _ hdisconnected hends =>
    have hconversation := hends []
    rw [List.append_nil] at hconversation
    refine ⟨?_, fun _ ↦ ?_, fun banReason' hends' _ ↦ ?_, fun hproceeds ↦ ?_⟩
    · rw [hconversation]
    · rw [hconversation]
    · rw [hconversation] at hends'
      cases hends'
      exact hdisconnected
    · rw [hconversation] at hproceeds
      cases hproceeds
  | shutting _ hends =>
    have hconversation := hends []
    rw [List.append_nil] at hconversation
    refine ⟨?_, fun _ ↦ ?_, fun banReason' hends' _ ↦ ?_, fun hproceeds ↦ ?_⟩
    · rw [hconversation]
    · rw [hconversation]
    · rw [hconversation] at hends'
      cases hends'
    · rw [hconversation] at hproceeds
      cases hproceeds

/-! ## What a peer sends -/

/-! ## Any cut of a stream -/

/-- The buffer is a queue of bytes under any interleaving of its operations, and a client extracts
the requests of the stream, however it is cut. -/
theorem framing_chunks :
    (∀ n b bytesIn bytesOut, CircularBuffer.Exchanges n b bytesIn bytesOut →
      CircularBuffer.Fifo n b bytesIn bytesOut) ∧
    ∀ fmt react arrivals, ∃ c, run fmt react arrivals = .ok c ∧
      Extracts fmt react (streamOf arrivals) c := by
  refine ⟨fun n b bytesIn bytesOut h ↦ h.fifo, fun fmt react arrivals ↦ ?_⟩
  obtain ⟨c, hok, htracks⟩ := run_tracks fmt react arrivals
  exact ⟨c, hok, htracks.extracts⟩

section Ping

/-- A ping that wants an answer. -/
def pingMessage : Bytes :=
  [0x01, 0x21, 1, 1, 1, 1, 1, 1, 10, 0, 0, 0, 0, 0, 0, 0, 1, 0xeb, 3, 0, 0, 0, 0, 0, 0, 1, 0, 0, 0,
    1, 0, 0, 0] ++ [1, 0x11, 1, 1, 1, 1, 2, 1, 1, 0]

/-- `msg_ping`: an answer and `send_shutdown`. -/
def answersPing : Handlers := fun _ ↦ { responses := [[0]], ending := .shutsDown }

/-- After `send_shutdown`, a header that is refused counts only where it has come to the buffer
before the socket drops what it has. -/
theorem shutdown_depends_on_chunks : ¬ ∀ (arrivals arrivals' : List Arrival) (c c' : P2PClient),
    streamOf arrivals = streamOf arrivals' → run levin answersPing arrivals = .ok c →
      run levin answersPing arrivals' = .ok c' → c.responses = [] → c'.responses = [] →
        c.requests = c'.requests ∧ c.disconnected = c'.disconnected := by
  intro hsame
  let noise : Bytes := List.replicate 33 0
  let whole : List Arrival := [{ pieces := [pingMessage ++ noise], room := [1] }]
  let cut : List Arrival := [{ pieces := [pingMessage], room := [1] }, { pieces := [noise] }]
  have hwhole : (run levin answersPing whole).toOption.map
      (fun c ↦ (c.responses, c.disconnected)) = some ([], ["Levin signature mismatch"]) := by
    decide +kernel
  have hcut : (run levin answersPing cut).toOption.map
      (fun c ↦ (c.responses, c.disconnected)) = some ([], []) := by
    decide +kernel
  obtain ⟨c, hok, -⟩ := run_tracks levin answersPing whole
  obtain ⟨c', hok', -⟩ := run_tracks levin answersPing cut
  rw [hok] at hwhole
  rw [hok'] at hcut
  simp only [Except.toOption, Option.map_some, Option.some.injEq, Prod.mk.injEq] at hwhole hcut
  have hends := hsame whole cut c c' (by decide) hok hok' hwhole.1 hcut.1
  rw [hwhole.2, hcut.2] at hends
  cases hends.2

end Ping

end Naza.P2PClient
