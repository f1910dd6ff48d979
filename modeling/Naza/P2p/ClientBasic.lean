import Naza.CryptoNote

/-!
# A peer connection

`P2PClientBasic`: the dispatcher of received messages and its flags.  A handler that disconnects the
peer returns to the dispatcher, which has its flags reset by then and takes the message for the
first one after the handshake.
-/

namespace Naza.P2PClientBasic

/-! ## The connection -/

/-- The commands that the handlers are found by. -/
inductive Command where
  | ping
  | handshake
  | timedSync
  | notifyNewBlock
  | notifyNewTransactions
  | notifyRequestTxPool
  | notifyRequestChain
  | notifyResponseChainEntry
  | notifyRequestGetObjects
  | notifyResponseGetObjects
  | other (id : UInt32)
  deriving DecidableEq

/-- What an overridden handler `on_msg_…` of the node does to its connection. -/
inductive Outcome where
  | proceeds
  | disconnects
  | throws
  deriving DecidableEq

/-- A message as it is received: whether its header can be read, what is found in its body, and
what comes of handling it. -/
structure Request where
  headerRead : Bool := true
  command : Command
  isResponse : Bool := false
  parsed : Bool := true
  nodeVersion : UInt8 := 1
  networkId : UInt64 := 0
  peerId : UInt64 := 0
  /-- an answer finds the socket closed, which disconnects -/
  sendDisconnects : Bool := false
  outcome : Outcome := .proceeds

/-- The configuration of the node and the direction of the connection. -/
structure Setting where
  incoming : Bool
  networkId : UInt64
  uniqueNumber : UInt64

/-- The fields of a connection, and the peers passed to `set_peer_just_seen`. -/
structure Client where
  connected : Bool := true
  waitingShutdown : Bool := false
  version : UInt8 := 0
  firstMessageAfterHandshakeProcessed : Bool := false
  lastReceivedUniqueNumber : UInt64 := 0
  justSeen : List UInt64 := []

/-- `handshake_ok`. -/
def Client.handshakeOk (s : Client) : Bool := s.version ≠ 0

/-- `disconnect`, with `on_disconnect`. -/
def Client.disconnect (s : Client) : Client :=
  { s with
    connected := false
    version := 0
    firstMessageAfterHandshakeProcessed := false
    lastReceivedUniqueNumber := 0 }

/-- `on_first_message_after_handshake` of the node. -/
def Client.onFirstMessageAfterHandshake (s : Client) : Client :=
  { s with justSeen := s.justSeen ++ [s.lastReceivedUniqueNumber] }

/-! ## Handlers -/

/-- A handler; `none` where it throws. -/
abbrev Handler := Request → Client → Option Client

/-- `send`. -/
def send (r : Request) (s : Client) : Client := if r.sendDisconnects then s.disconnect else s

/-- The overridden handler at the end of a handler. -/
def overridden : Handler := fun r s ↦
  match r.outcome with
  | .proceeds => some s
  | .disconnects => some s.disconnect
  | .throws => none

variable (setting : Setting)

/-- `msg_handshake` of a request. -/
def msgHandshakeRequest : Handler := fun r s ↦
  if setting.incoming = false then some s.disconnect
  else if r.networkId ≠ setting.networkId then some s.disconnect
  else
    overridden r { send r s with version := r.nodeVersion, lastReceivedUniqueNumber := r.peerId }

/-- `msg_handshake` of a response. -/
def msgHandshakeResponse : Handler := fun r s ↦
  if setting.incoming = true then some s.disconnect
  else if r.networkId ≠ setting.networkId then some s.disconnect
  else if r.peerId = setting.uniqueNumber then some s.disconnect
  else overridden r { s with version := r.nodeVersion, lastReceivedUniqueNumber := r.peerId }

/-- `msg_ping` of a request, with `send_shutdown`. -/
def msgPingRequest : Handler := fun r s ↦
  if setting.incoming = false then some s.disconnect
  else overridden r { send r s with waitingShutdown := true }

/-- `msg_ping` of a response. -/
def msgPingResponse : Handler := fun r s ↦
  if setting.incoming = true then some s.disconnect else overridden r s

/-- `msg_timed_sync` of a request. -/
def msgTimedSyncRequest : Handler := fun r s ↦ overridden r (send r s)

/-- `levin_method`. -/
def levinMethod (handler : Handler) : Handler := fun r s ↦
  if r.parsed = false then some s.disconnect else handler r s

/-- `before_handshake_handlers`. -/
def beforeHandshakeHandlers : Command → Bool → Option Handler
  | .ping, false => some (levinMethod (msgPingRequest setting))
  | .ping, true => some (levinMethod (msgPingResponse setting))
  | .handshake, false => some (levinMethod (msgHandshakeRequest setting))
  | .handshake, true => some (levinMethod (msgHandshakeResponse setting))
  | _, _ => none

/-- `after_handshake_handlers`. -/
def afterHandshakeHandlers : Command → Bool → Option Handler
  | .timedSync, false => some (levinMethod msgTimedSyncRequest)
  | .timedSync, true => some (levinMethod overridden)
  | .notifyNewBlock, false => some (levinMethod overridden)
  | .notifyNewTransactions, false => some (levinMethod overridden)
  | .notifyRequestTxPool, false => some (levinMethod overridden)
  | .notifyRequestChain, false => some (levinMethod overridden)
  | .notifyResponseChainEntry, false => some (levinMethod overridden)
  | .notifyRequestGetObjects, false => some (levinMethod overridden)
  | .notifyResponseGetObjects, false => some (levinMethod overridden)
  | _, _ => none

/-! ## The dispatcher -/

/-- One round of `on_request_ready`; an exception disconnects. -/
def onRequest (r : Request) (s : Client) : Client :=
  if r.headerRead = false then s.disconnect
  else if s.handshakeOk = false then
    match beforeHandshakeHandlers setting r.command r.isResponse with
    | some handler => (handler r s).getD s.disconnect
    | none => s.disconnect
  else
    match afterHandshakeHandlers r.command r.isResponse with
    | some handler =>
      match handler r s with
      | some s =>
        if s.firstMessageAfterHandshakeProcessed = false then
          { s with firstMessageAfterHandshakeProcessed := true }.onFirstMessageAfterHandshake
        else s
      | none => s.disconnect
    | none => s

/-- What happens on a connection. -/
inductive Event where
  | received (r : Request)
  /-- by the socket, by a timer, or while another peer is handled -/
  | disconnected

/-- One event; nothing is read from a connection that is closed or about to be. -/
def step (s : Client) : Event → Client
  | .received r =>
    if s.connected = true ∧ s.waitingShutdown = false then onRequest setting r s else s
  | .disconnected => s.disconnect

/-- The connection after some events. -/
def run (events : List Event) : Client := events.foldl (step setting) {}

/-! ## Which messages whitelist the peer -/

variable {setting} {s : Client} {r : Request}

/-- The message reaches a handler of those after the handshake. -/
def Handled (s : Client) (r : Request) : Prop :=
  s.connected = true ∧ s.waitingShutdown = false ∧ r.headerRead = true ∧ s.handshakeOk = true ∧
    (afterHandshakeHandlers r.command r.isResponse).isSome = true

/-- Handling the message disconnects the peer, without an exception. -/
def Request.DisconnectsInHandler (r : Request) : Prop :=
  r.parsed = false ∨ r.outcome = .disconnects ∨
    r.outcome = .proceeds ∧ r.command = .timedSync ∧ r.isResponse = false ∧ r.sendDisconnects = true

@[simp]
theorem connected_disconnect (s : Client) : s.disconnect.connected = false := rfl

@[simp]
theorem justSeen_disconnect (s : Client) : s.disconnect.justSeen = s.justSeen := rfl

theorem send_eq_or (r : Request) (s : Client) : send r s = s ∨ send r s = s.disconnect := by
  unfold send
  split
  · exact Or.inr rfl
  · exact Or.inl rfl

/-- All handlers of messages after the handshake but one only call the overridden handler. -/
theorem afterHandshakeHandlers_cases {handler : Handler}
    (hhandler : afterHandshakeHandlers r.command r.isResponse = some handler) :
    handler = levinMethod msgTimedSyncRequest ∧ r.command = .timedSync ∧ r.isResponse = false ∨
      handler = levinMethod overridden ∧ ¬(r.command = .timedSync ∧ r.isResponse = false) := by
  cases hcommand : r.command
  all_goals
    cases hresponse : r.isResponse
    all_goals
      rw [hcommand, hresponse] at hhandler
      cases hhandler <;> simp

theorem overridden_cases (r : Request) (s : Client) :
    r.outcome = .disconnects ∧ overridden r s = some s.disconnect ∨
      r.outcome = .proceeds ∧ overridden r s = some s ∨
        r.outcome = .throws ∧ overridden r s = none := by
  unfold overridden
  cases r.outcome with
  | proceeds => exact Or.inr (Or.inl ⟨rfl, rfl⟩)
  | disconnects => exact Or.inl ⟨rfl, rfl⟩
  | throws => exact Or.inr (Or.inr ⟨rfl, rfl⟩)

/-- A handler of a message after the handshake disconnects, or leaves the connection as it was, or
throws. -/
theorem afterHandshake_cases {handler : Handler} (s : Client)
    (hhandler : afterHandshakeHandlers r.command r.isResponse = some handler) :
    r.DisconnectsInHandler ∧ handler r s = some s.disconnect ∨
      ¬r.DisconnectsInHandler ∧ (handler r s = some s ∨ handler r s = none) := by
  by_cases hparsed : r.parsed = false
  · left
    refine ⟨Or.inl hparsed, ?_⟩
    rcases afterHandshakeHandlers_cases hhandler with ⟨rfl, _⟩ | ⟨rfl, _⟩
    · exact if_pos hparsed
    · exact if_pos hparsed
  rcases afterHandshakeHandlers_cases hhandler with ⟨rfl, hcommand, hresponse⟩ | ⟨rfl, hother⟩
  · rw [levinMethod, if_neg hparsed, msgTimedSyncRequest]
    by_cases hsend : r.sendDisconnects = true
    · rw [send, if_pos hsend]
      rcases overridden_cases r s.disconnect with ⟨ho, h⟩ | ⟨ho, h⟩ | ⟨ho, h⟩
      · exact Or.inl ⟨Or.inr (Or.inl ho), h⟩
      · exact Or.inl ⟨Or.inr (Or.inr ⟨ho, hcommand, hresponse, hsend⟩), h⟩
      · refine Or.inr ⟨?_, Or.inr h⟩
        rintro (hp | hd | ⟨hp, _⟩)
        · exact hparsed hp
        · rw [ho] at hd
          cases hd
        · rw [ho] at hp
          cases hp
    · rw [send, if_neg hsend]
      rcases overridden_cases r s with ⟨ho, h⟩ | ⟨ho, h⟩ | ⟨ho, h⟩
      · exact Or.inl ⟨Or.inr (Or.inl ho), h⟩
      all_goals
        refine Or.inr ⟨?_, by simp [h]⟩
        rintro (hp | hd | ⟨_, _, _, hs⟩)
        · exact hparsed hp
        · rw [ho] at hd
          cases hd
        · exact hsend hs
  · rw [levinMethod, if_neg hparsed]
    rcases overridden_cases r s with ⟨ho, h⟩ | ⟨ho, h⟩ | ⟨ho, h⟩
    · exact Or.inl ⟨Or.inr (Or.inl ho), h⟩
    all_goals
      refine Or.inr ⟨?_, by simp [h]⟩
      rintro (hp | hd | ⟨_, hcommand, hresponse, _⟩)
      · exact hparsed hp
      · rw [ho] at hd
        cases hd
      · exact hother ⟨hcommand, hresponse⟩

/-- A handler before the handshake whitelists nobody, and leaves the flag alone or disconnects. -/
theorem beforeHandshake_cases {handler : Handler} {s' : Client}
    (hhandler : beforeHandshakeHandlers setting r.command r.isResponse = some handler)
    (hok : handler r s = some s') :
    s'.justSeen = s.justSeen ∧ (s'.connected = true →
      s'.firstMessageAfterHandshakeProcessed = s.firstMessageAfterHandshakeProcessed) := by
  have hoverridden : ∀ (t : Client), t.justSeen = s.justSeen →
      (t.connected = true → t.firstMessageAfterHandshakeProcessed =
        s.firstMessageAfterHandshakeProcessed) → overridden r t = some s' →
      s'.justSeen = s.justSeen ∧ (s'.connected = true →
        s'.firstMessageAfterHandshakeProcessed = s.firstMessageAfterHandshakeProcessed) := by
    intro t hseen hflag h
    rcases overridden_cases r t with ⟨_, ho⟩ | ⟨_, ho⟩ | ⟨_, ho⟩
    · rw [ho] at h
      cases h
      exact ⟨hseen, fun hconnected ↦ by cases hconnected⟩
    · rw [ho] at h
      cases h
      exact ⟨hseen, hflag⟩
    · rw [ho] at h
      cases h
  have hdisconnect : some s.disconnect = some s' → s'.justSeen = s.justSeen ∧
      (s'.connected = true → s'.firstMessageAfterHandshakeProcessed =
        s.firstMessageAfterHandshakeProcessed) := by
    intro h
    cases h
    exact ⟨rfl, fun hconnected ↦ by cases hconnected⟩
  have hsend : (send r s).justSeen = s.justSeen ∧ ((send r s).connected = true →
      (send r s).firstMessageAfterHandshakeProcessed =
        s.firstMessageAfterHandshakeProcessed) := by
    rcases send_eq_or r s with h | h
    · rw [h]
      exact ⟨rfl, fun _ ↦ rfl⟩
    · rw [h]
      exact ⟨rfl, fun hconnected ↦ by cases hconnected⟩
  unfold beforeHandshakeHandlers at hhandler
  split at hhandler
  · cases hhandler
    rw [levinMethod] at hok
    split at hok
    · exact hdisconnect hok
    · rw [msgPingRequest] at hok
      split at hok
      · exact hdisconnect hok
      · exact hoverridden { send r s with waitingShutdown := true } hsend.1 hsend.2 hok
  · cases hhandler
    rw [levinMethod] at hok
    split at hok
    · exact hdisconnect hok
    · rw [msgPingResponse] at hok
      split at hok
      · exact hdisconnect hok
      · exact hoverridden s rfl (fun _ ↦ rfl) hok
  · cases hhandler
    rw [levinMethod] at hok
    split at hok
    · exact hdisconnect hok
    · rw [msgHandshakeRequest] at hok
      split at hok
      · exact hdisconnect hok
      · split at hok
        · exact hdisconnect hok
        · exact hoverridden { send r s with
            version := r.nodeVersion, lastReceivedUniqueNumber := r.peerId } hsend.1 hsend.2 hok
  · cases hhandler
    rw [levinMethod] at hok
    split at hok
    · exact hdisconnect hok
    · rw [msgHandshakeResponse] at hok
      split at hok
      · exact hdisconnect hok
      · split at hok
        · exact hdisconnect hok
        · split at hok
          · exact hdisconnect hok
          · exact hoverridden { s with
              version := r.nodeVersion, lastReceivedUniqueNumber := r.peerId } rfl (fun _ ↦ rfl) hok
  · cases hhandler

/-! ## One step -/

/-- A message whitelists the peer exactly when it is handled, its handler does not throw, and it is
the first one or its handler disconnects. -/
theorem step_received (setting : Setting) (s : Client) (r : Request) :
    (Handled s r ∧ r.DisconnectsInHandler ∧
        step setting s (.received r) = { s.disconnect with
          firstMessageAfterHandshakeProcessed := true, justSeen := s.justSeen ++ [0] }) ∨
      (Handled s r ∧ ¬r.DisconnectsInHandler ∧ s.firstMessageAfterHandshakeProcessed = false ∧
        step setting s (.received r) = { s with
          firstMessageAfterHandshakeProcessed := true
          justSeen := s.justSeen ++ [s.lastReceivedUniqueNumber] }) ∨
      (¬(Handled s r ∧ r.DisconnectsInHandler) ∧
        (step setting s (.received r)).justSeen = s.justSeen ∧
        ((step setting s (.received r)).connected = true → s.connected = true ∧
          (step setting s (.received r)).firstMessageAfterHandshakeProcessed =
            s.firstMessageAfterHandshakeProcessed)) := by
  have hkept : ∀ {p : Prop}, ¬p → ∀ {s' : Client}, s'.justSeen = s.justSeen →
      (s'.connected = true → s.connected = true ∧ s'.firstMessageAfterHandshakeProcessed =
        s.firstMessageAfterHandshakeProcessed) →
      ¬p ∧ s'.justSeen = s.justSeen ∧ (s'.connected = true → s.connected = true ∧
        s'.firstMessageAfterHandshakeProcessed = s.firstMessageAfterHandshakeProcessed) :=
    fun hp _ hseen hflag ↦ ⟨hp, hseen, hflag⟩
  have hgone : ∀ {p : Prop}, s.disconnect.connected = true → p := fun h ↦ by cases h
  rw [step]
  by_cases hopen : s.connected = true ∧ s.waitingShutdown = false
  · rw [if_pos hopen, onRequest]
    by_cases hread : r.headerRead = false
    · rw [if_pos hread]
      refine Or.inr (Or.inr (hkept (fun h ↦ ?_) rfl hgone))
      rw [h.1.2.2.1] at hread
      cases hread
    rw [if_neg hread]
    by_cases hok : s.handshakeOk = false
    · rw [if_pos hok]
      refine Or.inr (Or.inr (hkept (fun h ↦ ?_) ?_ ?_))
      · rw [h.1.2.2.2.1] at hok
        cases hok
      all_goals
        cases hbefore : beforeHandshakeHandlers setting r.command r.isResponse with
        | none => first | rfl | exact hgone
        | some handler =>
          dsimp only
          cases hresult : handler r s with
          | none => first | rfl | exact hgone
          | some s' =>
            first
              | exact (beforeHandshake_cases hbefore hresult).1
              | exact fun hconnected ↦ ⟨hopen.1,
                  (beforeHandshake_cases hbefore hresult).2 hconnected⟩
    rw [if_neg hok]
    cases hafter : afterHandshakeHandlers r.command r.isResponse with
    | none =>
      refine Or.inr (Or.inr (hkept (fun h ↦ ?_) rfl fun _ ↦ ⟨hopen.1, rfl⟩))
      have hsome := h.1.2.2.2.2
      rw [hafter] at hsome
      cases hsome
    | some handler =>
      have hhandled : Handled s r :=
        ⟨hopen.1, hopen.2, Bool.of_not_eq_false hread, Bool.of_not_eq_false hok, by simp [hafter]⟩
      dsimp only
      rcases afterHandshake_cases s hafter with ⟨hbad, h⟩ | ⟨hgood, h | h⟩
      · left
        rw [h]
        exact ⟨hhandled, hbad, rfl⟩
      · rw [h]
        dsimp only
        by_cases hfirst : s.firstMessageAfterHandshakeProcessed = false
        · rw [if_pos hfirst]
          exact Or.inr (Or.inl ⟨hhandled, hgood, hfirst, rfl⟩)
        · rw [if_neg hfirst]
          exact Or.inr (Or.inr (hkept (fun h ↦ hgood h.2) rfl fun _ ↦ ⟨hopen.1, rfl⟩))
      · rw [h]
        exact Or.inr (Or.inr (hkept (fun h ↦ hgood h.2) rfl hgone))
  · rw [if_neg hopen]
    exact Or.inr (Or.inr (hkept (fun h ↦ hopen ⟨h.1.1, h.1.2.1⟩) rfl fun h ↦ ⟨h, rfl⟩))

/-! ## Runs -/

/-- The peer is whitelisted at most once, by a message that came after the handshake and was handled
with the peer still connected. -/
structure WhitelistsOnce (setting : Setting) (events : List Event) : Prop where
  atMostOnce : (run setting events).justSeen.length ≤ 1
  handledConnected : ∀ (before : List Event) (r : Request) (after : List Event),
    events = before ++ .received r :: after →
    (run setting (before ++ [.received r])).justSeen ≠ (run setting before).justSeen →
    (run setting before).handshakeOk = true ∧
      (run setting (before ++ [.received r])).connected = true

/-- What holds of a connection none of whose handlers has disconnected it. -/
structure Bookkept (s : Client) : Prop where
  atMostOnce : s.justSeen.length ≤ 1
  flag : s.connected = true → s.firstMessageAfterHandshakeProcessed = false → s.justSeen = []

theorem run_append_singleton (events : List Event) (e : Event) :
    run setting (events ++ [e]) = step setting (run setting events) e := by
  rw [run, List.foldl_append]
  rfl

theorem bookkept_step {e : Event} (hs : Bookkept s)
    (hgood : ∀ r, e = .received r → Handled s r → ¬r.DisconnectsInHandler) :
    Bookkept (step setting s e) := by
  cases e with
  | disconnected => exact ⟨hs.atMostOnce, fun hconnected ↦ by cases hconnected⟩
  | received r =>
    rcases step_received setting s r with
      ⟨hhandled, hbad, _⟩ | ⟨hhandled, _, hflag, h⟩ | ⟨_, hseen, hflag⟩
    · exact absurd hbad (hgood r rfl hhandled)
    · rw [h]
      refine ⟨?_, fun _ hprocessed ↦ by cases hprocessed⟩
      change (s.justSeen ++ [s.lastReceivedUniqueNumber]).length ≤ 1
      rw [hs.flag hhandled.1 hflag]
      exact le_refl 1
    · constructor
      · rw [hseen]
        exact hs.atMostOnce
      · intro hconnected hprocessed
        obtain ⟨hbefore, hkept⟩ := hflag hconnected
        rw [hseen]
        exact hs.flag hbefore (hkept.symm.trans hprocessed)

theorem bookkept_run {events : List Event}
    (hgood : ∀ before r after, events = before ++ .received r :: after →
      Handled (run setting before) r → ¬r.DisconnectsInHandler) :
    Bookkept (run setting events) := by
  induction events using List.reverseRecOn with
  | nil => exact ⟨Nat.zero_le 1, fun _ _ ↦ rfl⟩
  | append_singleton events e ih =>
    rw [run_append_singleton]
    refine bookkept_step (ih fun before r after h ↦ ?_) fun r he ↦ ?_
    · exact hgood before r (after ++ [e]) (by rw [h, List.append_assoc, List.cons_append])
    · exact hgood events r [] (by rw [he])

/-- A peer that has shaken hands sends a body that does not parse. -/
def unparsableAfterHandshake : List Event :=
  [.received { command := .handshake, peerId := 5 },
    .received { command := .timedSync, parsed := false }]

end Naza.P2PClientBasic
