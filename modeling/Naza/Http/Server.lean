import Naza.Http.Client
import Naza.Lib.Store

/-!
# The HTTP server of a node

`http::Server` and the requests to a `Node`.  A request for the status that its sender knows
already, or for a template above a block that its sender knows, waits in a list until the node has
another one; every other request is answered at once.
-/

open Lib

namespace Naza.Http

open Json (text)

namespace GetStatus

structure Request where
  topBlockHash : Hash := 0
  transactionPoolVersion : UInt32 := 0
  outgoingPeerCount : UInt32 := 0
  incomingPeerCount : UInt32 := 0
  lowerLevelError : Bytes := []
  deriving DecidableEq

structure Response extends Request where
  topBlockHeight : Height := 0
  topKnownBlockHeight : Height := 0
  topBlockDifficulty : Difficulty := 0
  recommendedFeePerByte : Amount := 0
  topBlockTimestamp : Timestamp := 0
  topBlockTimestampMedian : Timestamp := 0
  nextBlockEffectiveMedianSize : UInt32 := 0
  deriving DecidableEq

end GetStatus

/-- The methods of requests that may wait; each has two names. -/
inductive PollMethod where
  | getStatus
  | getBlockTemplate
  deriving DecidableEq

/-- `json_rpc::Request`, of one of these methods. -/
structure JsonRequest where
  method : PollMethod
  id : Bytes
  params : Bytes
  deriving DecidableEq

/-- `Node::LongPollClient`; the connection is known by a number instead of its address. -/
structure LongPollClient where
  originalWho : ℕ
  originalRequest : RequestData
  originalJsonRequest : JsonRequest
  originalGetStatus : GetStatus.Request

/-- What a handler comes to; it leaves the node in some state. -/
inductive HandlerResult (ν : Type) where
  /-- a reply, and whether `advance_long_poll` is called before it -/
  | replies (headers : List Header) (body : Bytes) (node : ν) (advances : Bool)
  | throws (what : Bytes) (node : ν)
  /-- `on_get_status3` or `on_getblocktemplate`: what is known of the status, and the reply where
  the node knows more -/
  | asks (json : JsonRequest) (sta : GetStatus.Request) (headers : List Header) (body : Bytes)
    (node : ν)

/-- The parts of a node that requests are answered with: its status, `m_http_handlers`, the texts
that depend on them, and `getblocktemplate` with its errors, which does not show in the status. -/
structure NodeApi (ν : Type) where
  createStatusResponse3 : ν → GetStatus.Response
  statusBody : Bytes → GetStatus.Response → Bytes
  templateBody : JsonRequest → ν → Bytes × ν
  indexPage : ν → Bytes
  handlers : Bytes → Option (ν → RequestData → HandlerResult ν)
  legacyBinMethods : List Bytes
  nazadAuthorization : Bytes
  status_templateBody : ∀ json node,
    createStatusResponse3 (templateBody json node).2 = createStatusResponse3 node

/-- What a request comes to. -/
inductive ApiResult (ν : Type) where
  | answered (response : ResponseData) (node : ν) (advances : Bool)
  | waits (entry : LongPollClient)

/-- Whether the node is as a request knows it: all of its status, or the block and the memory pool
that a template would be made of. -/
def PollMethod.Knows (method : PollMethod) (sta : GetStatus.Request) (resp : GetStatus.Response) :
    Prop :=
  match method with
  | .getStatus => sta = resp.toRequest
  | .getBlockTemplate => sta.topBlockHash = resp.topBlockHash ∧
      sta.transactionPoolVersion = resp.transactionPoolVersion

instance (method : PollMethod) (sta : GetStatus.Request) (resp : GetStatus.Response) :
    Decidable (method.Knows sta resp) :=
  match method with
  | .getStatus => inferInstanceAs (Decidable (_ = _))
  | .getBlockTemplate => inferInstanceAs (Decidable (_ ∧ _))

/-- A request that waits for what the node does not have yet. -/
def LongPollClient.UpToDate (entry : LongPollClient) (resp : GetStatus.Response) : Prop :=
  entry.originalJsonRequest.method.Knows entry.originalGetStatus resp

instance (entry : LongPollClient) (resp : GetStatus.Response) :
    Decidable (entry.UpToDate resp) :=
  inferInstanceAs (Decidable (PollMethod.Knows _ _ _))

namespace ResponseData

def addHeaders (d : ResponseData) (headers : List Header) : ResponseData :=
  { d with r := { d.r with headers := d.r.headers ++ headers } }

def setStatus (d : ResponseData) (status : ℕ) : ResponseData :=
  { d with r := { d.r with own := { d.r.own with status } } }

/-- The response that `on_client_handler` starts with. -/
def unhandled (request : RequestData) : ResponseData :=
  ((ofRequest request.r).setStatus 422).setBody []

end ResponseData

section Replies

variable {request : RequestData} {response : ResponseData}

theorem Replies.ofRequest (request : RequestData) :
    Replies request (.ofRequest request.r) := ⟨rfl, rfl, rfl⟩

theorem Replies.addHeaders (h : Replies request response) (headers : List Header) :
    Replies request (response.addHeaders headers) :=
  ⟨h.httpVersionMajor, h.httpVersionMinor, h.keepAlive⟩

theorem Replies.setStatus (h : Replies request response) (status : ℕ) :
    Replies request (response.setStatus status) :=
  ⟨h.httpVersionMajor, h.httpVersionMinor, h.keepAlive⟩

theorem Replies.setBody (h : Replies request response) (body : Bytes) :
    Replies request (response.setBody body) :=
  ⟨h.httpVersionMajor, h.httpVersionMinor, h.keepAlive⟩

end Replies

def noCacheHeaders : List Header :=
  [⟨text "Cache-Control", text "no-cache, no-store, must-revalidate"⟩, ⟨text "Expires", text "0"⟩]

def contentType (value : String) : Header := ⟨text "Content-Type", text value⟩

namespace NodeApi

variable {ν : Type} (api : NodeApi ν)

/-- The response to a request that has waited, and the node behind it; `resp` is the status. -/
def pollResponse (resp : GetStatus.Response) (node : ν) (entry : LongPollClient) :
    ResponseData × ν :=
  let (body, node) := match entry.originalJsonRequest.method with
    | .getStatus => (api.statusBody entry.originalJsonRequest.id resp, node)
    | .getBlockTemplate => api.templateBody entry.originalJsonRequest node
  ((((ResponseData.ofRequest entry.originalRequest.r).addHeaders
    [contentType "application/json; charset=utf-8"]).setStatus 200).setBody body, node)

/-- `on_api_http_request`, with the exceptions that `on_client_handler` catches. -/
def onApiHttpRequest (node : ν) (who : ℕ) (request : RequestData) (response : ResponseData) :
    ApiResult ν :=
  let response := response.addHeaders
    (noCacheHeaders ++ [⟨text "Access-Control-Allow-Origin", text "*"⟩])
  let uri := request.r.own.uri
  if uri = text "/" ∨ uri = text "/index.html" then
    .answered (((response.addHeaders [contentType "text/html; charset=UTF-8"]).setStatus
      200).setBody (api.indexPage node)) node false
  else if uri = text "/robots.txt" then
    .answered (((response.addHeaders [contentType "text/plain; charset=UTF-8"]).setStatus
      200).setBody (text "User-agent: *\r\nDisallow: /")) node false
  else
    match api.handlers uri with
    | none =>
      .answered (response.setStatus (if uri ∈ api.legacyBinMethods then 410 else 404)) node false
    | some handler =>
      if api.nazadAuthorization ≠ [] ∧
          request.r.own.basicAuthorization ≠ api.nazadAuthorization then
        .answered ((response.addHeaders [⟨text "WWW-Authenticate",
          text "Basic realm=\"Blockchain\", charset=\"UTF-8\""⟩]).setStatus 401) node false
      else
        match handler node request with
        | .throws what node => .answered ((response.setStatus 422).setBody what) node false
        | .replies headers body node advances =>
          .answered (((response.addHeaders headers).setBody body).setStatus 200) node advances
        | .asks json sta headers body node' =>
          if json.method.Knows sta (api.createStatusResponse3 node) then
            .waits ⟨who, request, json, sta⟩
          else
            .answered (((response.addHeaders headers).setBody body).setStatus 200) node' false

end NodeApi

/-- The connections of a server, the requests that wait, and the node. -/
structure Server (ν : Type) where
  clients : Store ℕ Client := ∅
  longPoll : List LongPollClient := []
  node : ν

namespace Server

variable {ν : Type}

/-- `write` to the connection at an address. -/
def write (who : ℕ) (response : ResponseData) (s : Server ν) : Except Fault (Server ν) :=
  match s.clients.get who with
  | none => .error .outOfRange
  | some c => do
    let c ← c.write response
    return { s with clients := s.clients.put who c }

section Steps

variable (api : NodeApi ν) (cast : Bytes → Option ℕ)

/-- A round of `advance_long_poll`. -/
def advancePoll (resp : GetStatus.Response) (s : Server ν) (entry : LongPollClient) :
    Except Fault (Server ν) :=
  if entry.UpToDate resp then .ok { s with longPoll := s.longPoll ++ [entry] }
  else
    let (response, node) := api.pollResponse resp s.node entry
    Server.write entry.originalWho response { s with node }

def advanceLongPoll (s : Server ν) : Except Fault (Server ν) :=
  s.longPoll.foldlM (advancePoll api (api.createStatusResponse3 s.node)) { s with longPoll := [] }

/-- `on_client_handler`. -/
def onClientHandler (who : ℕ) : ℕ → Server ν → Except Fault (Server ν)
  | fuel, s =>
    match s.clients.get who with
    | none => .error .outOfRange
    | some c =>
      match c.readNext with
      | (none, _) => .ok s
      | (some request, c) =>
        match fuel with
        | 0 => .error .diverged
        | fuel + 1 =>
          let s := { s with clients := s.clients.put who c }
          match api.onApiHttpRequest s.node who request (.unhandled request) with
          | .waits entry => onClientHandler who fuel { s with longPoll := s.longPoll ++ [entry] }
          | .answered response node advances => do
            let s := { s with node }
            let s ← if advances then advanceLongPoll api s else pure s
            let s ← s.write who response
            onClientHandler who fuel s

/-- What the run loop can bring about; the node may change without a call of
`advance_long_poll`. -/
inductive Event (ν : Type) where
  | accepts (who : ℕ)
  | arrives (who : ℕ) (pieces : List Bytes) (room : List ℕ)
  | disconnects (who : ℕ)
  | changes (node : ν)
  | advances

/-- One event; there is one request at most to handle in it. -/
def step (s : Server ν) (e : Event ν) : Except Fault (Server ν) :=
  match e with
  | .accepts who =>
    match s.clients.get who with
    | none => .ok { s with clients := s.clients.put who {} }
    | some _ => .ok s
  | .arrives who pieces room =>
    match s.clients.get who with
    | none => .ok s
    | some c => do
      let (called, c) ← (c.arrive pieces room).advanceState cast
      let s := { s with clients := s.clients.put who c }
      if called then onClientHandler api who 1 s else return s
  | .disconnects who =>
    match s.clients.get who with
    | none => .ok s
    | some _ => .ok { s with
        clients := s.clients.remove who
        longPoll := s.longPoll.filter fun entry ↦ entry.originalWho ≠ who }
  | .changes node => .ok { s with node }
  | .advances => advanceLongPoll api s

def run (events : List (Event ν)) (node : ν) : Except Fault (Server ν) :=
  events.foldlM (step api cast) { node }

end Steps

/-! ## Who waits -/

/-- The connections that wait for a response are those of the requests in a list, once each. -/
structure Sound (cast : Bytes → Option ℕ) (clients : Store ℕ Client)
    (polls : List (LongPollClient)) : Prop where
  client : ∀ {who c}, clients.get who = some c → c.Sound cast
  nodup : (polls.map LongPollClient.originalWho).Nodup
  poll : ∀ e ∈ polls, ∃ c, clients.get e.originalWho = some c ∧ c.waitingWriteResponse = true ∧
    c.requests.getLast? = some e.originalRequest
  waits : ∀ {who c}, clients.get who = some c → c.waitingWriteResponse = true →
    who ∈ polls.map LongPollClient.originalWho

/-- No request waits for what the node has by now. -/
def Fresh (api : NodeApi ν) (s : Server ν) : Prop :=
  ∀ e ∈ s.longPoll, e.UpToDate (api.createStatusResponse3 s.node)

variable {api : NodeApi ν} {cast : Bytes → Option ℕ} {s : Server ν} {clients : Store ℕ Client}
  {polls before after : List LongPollClient} {entry : LongPollClient}

/-! ### Responses -/

theorem replies_pollResponse (api : NodeApi ν) (resp : GetStatus.Response) (node : ν)
    (entry : LongPollClient) :
    Replies entry.originalRequest (api.pollResponse resp node entry).1 :=
  .setBody (.setStatus (.addHeaders (.ofRequest _) _) _) _

theorem status_pollResponse (api : NodeApi ν) (resp : GetStatus.Response) (node : ν)
    (entry : LongPollClient) :
    api.createStatusResponse3 (api.pollResponse resp node entry).2 =
      api.createStatusResponse3 node := by
  rw [NodeApi.pollResponse]
  cases entry.originalJsonRequest.method with
  | getStatus => rfl
  | getBlockTemplate => exact api.status_templateBody _ _

/-- A request is answered with its version, or waits for what it does not know. -/
theorem onApiHttpRequest_cases (api : NodeApi ν) (node : ν) (who : ℕ) (request : RequestData) :
    (∃ response node' advances, api.onApiHttpRequest node who request (.unhandled request) =
      .answered response node' advances ∧ Replies request response) ∨
    ∃ json sta, api.onApiHttpRequest node who request (.unhandled request) =
      .waits ⟨who, request, json, sta⟩ := by
  have hfirst : ∀ headers, Replies request ((ResponseData.unhandled request).addHeaders headers) :=
    fun headers ↦ .addHeaders (.setBody (.setStatus (.ofRequest request) _) _) headers
  unfold NodeApi.onApiHttpRequest
  dsimp only
  by_cases hindex : request.r.own.uri = text "/" ∨ request.r.own.uri = text "/index.html"
  · rw [if_pos hindex]
    exact Or.inl ⟨_, _, _, rfl, .setBody (.setStatus (.addHeaders (hfirst _) _) _) _⟩
  rw [if_neg hindex]
  by_cases hrobots : request.r.own.uri = text "/robots.txt"
  · rw [if_pos hrobots]
    exact Or.inl ⟨_, _, _, rfl, .setBody (.setStatus (.addHeaders (hfirst _) _) _) _⟩
  rw [if_neg hrobots]
  cases api.handlers request.r.own.uri with
  | none => exact Or.inl ⟨_, _, _, rfl, .setStatus (hfirst _) _⟩
  | some handler =>
    dsimp only
    by_cases hauthorization : api.nazadAuthorization ≠ [] ∧
        request.r.own.basicAuthorization ≠ api.nazadAuthorization
    · rw [if_pos hauthorization]
      exact Or.inl ⟨_, _, _, rfl, .setStatus (.addHeaders (hfirst _) _) _⟩
    rw [if_neg hauthorization]
    cases handler node request with
    | throws what node' => exact Or.inl ⟨_, _, _, rfl, .setBody (.setStatus (hfirst _) _) _⟩
    | replies headers body node' advances =>
      exact Or.inl ⟨_, _, _, rfl, .setStatus (.setBody (.addHeaders (hfirst _) _) _) _⟩
    | asks json sta headers body node' =>
      dsimp only
      by_cases hknown : json.method.Knows sta (api.createStatusResponse3 node)
      · rw [if_pos hknown]
        exact Or.inr ⟨_, _, rfl⟩
      · rw [if_neg hknown]
        exact Or.inl ⟨_, _, _, rfl, .setStatus (.setBody (.addHeaders (hfirst _) _) _) _⟩

/-! ### The list -/

/-- Nothing is left to take out of a connection. -/
def Idle (s : Server ν) (who : ℕ) : Prop :=
  ∃ c, s.clients.get who = some c ∧ (c.waitingWriteResponse = true ∨ c.receivingBody = false)

theorem onClientHandler_idle (h : Idle s who) (fuel : ℕ) :
    onClientHandler api who fuel s = .ok s := by
  obtain ⟨c, hget, hidle⟩ := h
  have hnone : c.readNext = (none, c) := by
    unfold Client.readNext
    split_ifs with hwaiting hreceiving
    · rfl
    · rfl
    · exact absurd hidle (not_or.2 ⟨hwaiting, hreceiving⟩)
    · exact absurd hidle (not_or.2 ⟨hwaiting, hreceiving⟩)
  unfold onClientHandler
  rw [hget]
  dsimp only
  rw [hnone]

/-- A connection that is not waited for, in the place of another one or of none. -/
theorem Sound.put (h : Sound cast clients polls) {who : ℕ} {c : Client} (hc : c.Sound cast)
    (hwaiting : c.waitingWriteResponse = false)
    (hold : ∀ c', clients.get who = some c' → c'.waitingWriteResponse = false) :
    Sound cast (clients.put who c) polls := by
  have hne : ∀ e ∈ polls, who ≠ e.originalWho := by
    rintro e he rfl
    obtain ⟨c', hget, hyes, -⟩ := h.poll e he
    rw [hold c' hget] at hyes
    cases hyes
  refine ⟨fun {who' c'} hget ↦ ?_, h.nodup, fun e he ↦ ?_, fun {who' c'} hget hyes ↦ ?_⟩
  · by_cases heq : who = who'
    · subst heq
      rw [Store.get_put_self, Option.some_inj] at hget
      exact hget ▸ hc
    · rw [Store.get_put_of_ne _ _ heq] at hget
      exact h.client hget
  · obtain ⟨c', hget, hrest⟩ := h.poll e he
    exact ⟨c', by rw [Store.get_put_of_ne _ _ (hne e he), hget], hrest⟩
  · by_cases heq : who = who'
    · subst heq
      rw [Store.get_put_self, Option.some_inj] at hget
      rw [← hget, hwaiting] at hyes
      cases hyes
    · rw [Store.get_put_of_ne _ _ heq] at hget
      exact h.waits hget hyes

/-- A connection in the place of itself, as far as its turn goes. -/
theorem Sound.put_sameTurn (h : Sound cast clients polls) {who : ℕ} {c c' : Client}
    (hget : clients.get who = some c) (hc' : c'.Sound cast) (hturn : c.SameTurn c') :
    Sound cast (clients.put who c') polls := by
  refine ⟨fun {who₁ c₁} hget₁ ↦ ?_, h.nodup, fun e he ↦ ?_, fun {who₁ c₁} hget₁ hyes ↦ ?_⟩
  · by_cases heq : who = who₁
    · subst heq
      rw [Store.get_put_self, Option.some_inj] at hget₁
      exact hget₁ ▸ hc'
    · rw [Store.get_put_of_ne _ _ heq] at hget₁
      exact h.client hget₁
  · obtain ⟨c₁, hget₁, hyes, hlast⟩ := h.poll e he
    by_cases heq : who = e.originalWho
    · rw [← heq, hget, Option.some_inj] at hget₁
      subst hget₁
      exact ⟨c', by rw [← heq, Store.get_put_self], hturn.waiting.trans hyes,
        by rw [hturn.requests, hlast]⟩
    · exact ⟨c₁, by rw [Store.get_put_of_ne _ _ heq, hget₁], hyes, hlast⟩
  · by_cases heq : who = who₁
    · subst heq
      rw [Store.get_put_self, Option.some_inj] at hget₁
      rw [← hget₁, hturn.waiting] at hyes
      exact h.waits hget hyes
    · rw [Store.get_put_of_ne _ _ heq] at hget₁
      exact h.waits hget₁ hyes

/-- A request that is taken out waits. -/
theorem Sound.snoc (h : Sound cast clients polls) (entry : LongPollClient) {c c' : Client}
    (hget : clients.get entry.originalWho = some c) (hidle : c.waitingWriteResponse = false)
    (hc' : c'.Sound cast) (hwaiting : c'.waitingWriteResponse = true)
    (hlast : c'.requests.getLast? = some entry.originalRequest) :
    Sound cast (clients.put entry.originalWho c') (polls ++ [entry]) := by
  have hnot : entry.originalWho ∉ polls.map LongPollClient.originalWho := by
    rw [List.mem_map]
    rintro ⟨e, he, heq⟩
    obtain ⟨c₁, hget₁, hyes, -⟩ := h.poll e he
    rw [heq, hget, Option.some_inj] at hget₁
    rw [← hget₁, hidle] at hyes
    cases hyes
  refine ⟨fun {who₁ c₁} hget₁ ↦ ?_, ?_, fun e he ↦ ?_, fun {who₁ c₁} hget₁ hyes ↦ ?_⟩
  · by_cases heq : entry.originalWho = who₁
    · subst heq
      rw [Store.get_put_self, Option.some_inj] at hget₁
      exact hget₁ ▸ hc'
    · rw [Store.get_put_of_ne _ _ heq] at hget₁
      exact h.client hget₁
  · rw [List.map_append, List.nodup_append]
    refine ⟨h.nodup, List.nodup_singleton _, fun a ha b hb hab ↦ hnot ?_⟩
    rw [List.map_singleton, List.mem_singleton] at hb
    rw [← hb, ← hab]
    exact ha
  · rcases List.mem_append.1 he with he | he
    · have hne : entry.originalWho ≠ e.originalWho := fun heq ↦
        hnot (heq ▸ List.mem_map_of_mem he)
      obtain ⟨c₁, hget₁, hrest⟩ := h.poll e he
      exact ⟨c₁, by rw [Store.get_put_of_ne _ _ hne, hget₁], hrest⟩
    · obtain rfl := List.mem_singleton.1 he
      exact ⟨c', Store.get_put_self _ _ _, hwaiting, hlast⟩
  · rw [List.map_append, List.mem_append]
    by_cases heq : entry.originalWho = who₁
    · exact Or.inr (List.mem_singleton.2 heq.symm)
    · rw [Store.get_put_of_ne _ _ heq] at hget₁
      exact Or.inl (h.waits hget₁ hyes)

/-- The response to a request that waits ends its wait. -/
theorem Sound.write (h : Sound cast s.clients (before ++ entry :: after)) {response : ResponseData}
    (hreplies : Replies entry.originalRequest response) :
    Ends (fun s' ↦ Sound cast s'.clients (before ++ after) ∧ s'.longPoll = s.longPoll ∧
      s'.node = s.node ∧ Idle s' entry.originalWho) (¬ Client.VersionFault ·)
      (s.write entry.originalWho response) := by
  obtain ⟨c, hget, hwaiting, hlast⟩ := h.poll entry (by simp)
  have hnodup := h.nodup
  rw [List.map_append, List.map_cons, List.nodup_middle, List.nodup_cons, ← List.map_append]
    at hnodup
  have hne : ∀ e ∈ before ++ after, entry.originalWho ≠ e.originalWho := fun e he heq ↦
    hnodup.1 (heq ▸ List.mem_map_of_mem he)
  rw [Server.write, hget]
  refine ((h.client hget).write hwaiting hlast hreplies).bind ?_
  rintro c' ⟨hc', -, -, hidle, hreceiving⟩
  refine ⟨⟨fun {who₁ c₁} hget₁ ↦ ?_, hnodup.2, fun e he ↦ ?_, fun {who₁ c₁} hget₁ hyes ↦ ?_⟩, rfl,
    rfl, c', Store.get_put_self _ _ _, Or.inr hreceiving⟩
  · by_cases heq : entry.originalWho = who₁
    · subst heq
      rw [Store.get_put_self, Option.some_inj] at hget₁
      exact hget₁ ▸ hc'
    · rw [Store.get_put_of_ne _ _ heq] at hget₁
      exact h.client hget₁
  · have hmem : e ∈ before ++ entry :: after := by
      rw [List.mem_append, List.mem_cons]
      exact (List.mem_append.1 he).imp_right Or.inr
    obtain ⟨c₁, hget₁, hrest⟩ := h.poll e hmem
    exact ⟨c₁, by rw [Store.get_put_of_ne _ _ (hne e he), hget₁], hrest⟩
  · by_cases heq : entry.originalWho = who₁
    · subst heq
      rw [Store.get_put_self, Option.some_inj] at hget₁
      rw [← hget₁, hidle] at hyes
      cases hyes
    · rw [Store.get_put_of_ne _ _ heq] at hget₁
      have hmem := h.waits hget₁ hyes
      rw [List.map_append, List.map_cons, List.mem_append, List.mem_cons] at hmem
      rw [List.map_append, List.mem_append]
      exact hmem.imp_right fun hor ↦ hor.resolve_left fun heq' ↦ heq heq'.symm

/-- `advance_long_poll` answers the requests that the node has something for, and leaves the others
in the list. -/
theorem Sound.advanceLongPoll (h : Sound cast s.clients (s.longPoll ++ after)) :
    Ends (fun s' ↦ Sound cast s'.clients (s'.longPoll ++ after) ∧ Fresh api s')
      (¬ Client.VersionFault ·) (Server.advanceLongPoll api s) := by
  let resp := api.createStatusResponse3 s.node
  have hrounds : Ends (fun s' : Server ν ↦ Sound cast s'.clients (s'.longPoll ++ ([] ++ after)) ∧
      api.createStatusResponse3 s'.node = resp ∧ ∀ e ∈ s'.longPoll, e.UpToDate resp)
      (¬ Client.VersionFault ·) (Server.advanceLongPoll api s) := by
    refine Ends.foldlM_rest (I := fun rest (s' : Server ν) ↦ Sound cast
      s'.clients (s'.longPoll ++ (rest ++ after)) ∧ api.createStatusResponse3 s'.node = resp ∧
        ∀ e ∈ s'.longPoll, e.UpToDate resp) ?_ ⟨h, rfl, fun e he ↦ absurd he List.not_mem_nil⟩
    rintro s₁ e rest ⟨hsound, hstatus, hfresh⟩
    rw [advancePoll]
    split_ifs with hsame
    · refine ⟨?_, hstatus, fun e' he' ↦ ?_⟩
      · dsimp only
        rw [List.append_assoc]
        exact hsound
      · rcases List.mem_append.1 he' with he' | he'
        · exact hfresh e' he'
        · rw [List.mem_singleton.1 he']
          exact hsame
    · refine (Sound.write (s := { s₁ with node := (api.pollResponse resp s₁.node e).2 }) hsound
        (replies_pollResponse api resp s₁.node e)).mono ?_
      rintro s₂ ⟨hsound₂, hlongPoll, hnode₂, -⟩
      refine ⟨?_, ?_, fun e' he' ↦ ?_⟩
      · rw [hlongPoll]
        exact hsound₂
      · rw [hnode₂]
        exact (status_pollResponse api resp s₁.node e).trans hstatus
      · rw [hlongPoll] at he'
        exact hfresh e' he'
  refine hrounds.mono fun s' hs' ↦ ⟨hs'.1, fun e he ↦ ?_⟩
  rw [hs'.2.1]
  exact hs'.2.2 e he

theorem Sound.advanceLongPoll_all (h : Sound cast s.clients s.longPoll) :
    Ends (fun s' ↦ Sound cast s'.clients s'.longPoll ∧ Fresh api s') (¬ Client.VersionFault ·)
      (Server.advanceLongPoll api s) := by
  have hsound : Sound cast s.clients (s.longPoll ++ []) := (List.append_nil s.longPoll).symm ▸ h
  refine hsound.advanceLongPoll.mono fun s' hs' ↦ ⟨?_, hs'.2⟩
  have hsound := hs'.1
  rwa [List.append_nil] at hsound

/-! ## Runs -/

/-- `on_client_handler` answers the request, or has it wait. -/
theorem Sound.onClientHandler (h : Sound cast s.clients s.longPoll) {who : ℕ} {c : Client}
    (hget : s.clients.get who = some c) :
    Ends (fun s' ↦ Sound cast s'.clients s'.longPoll) (¬ Client.VersionFault ·)
      (Server.onClientHandler api who 1 s) := by
  unfold Server.onClientHandler
  rw [hget]
  dsimp only
  rcases (h.client hget).readNext with
    hnone | ⟨request, c', hsome, hc', hrequests, -, hidle, hwaiting⟩
  · rw [hnone]
    exact h
  rw [hsome]
  dsimp only
  have hlast : c'.requests.getLast? = some request := by
    rw [hrequests, List.getLast?_concat]
  -- until it is answered, the request counts as one that waits, of whatever method
  have hput : ∀ json sta, Sound cast (s.clients.put who c')
      (s.longPoll ++ [⟨who, request, json, sta⟩]) := fun json sta ↦
    h.snoc ⟨who, request, json, sta⟩ hget hidle hc' hwaiting hlast
  rcases onApiHttpRequest_cases api s.node who request with
    ⟨response, node, advances, heq, hreplies⟩ | ⟨json, sta, heq⟩
  · rw [heq]
    dsimp only
    let entry : LongPollClient := ⟨who, request, ⟨.getStatus, [], []⟩, {}⟩
    have hwrite : ∀ s₁ : Server ν,
        Sound cast s₁.clients (s₁.longPoll ++ [entry]) →
        Ends (fun s' ↦ Sound cast s'.clients s'.longPoll) (¬ Client.VersionFault ·)
          (s₁.write who response >>= fun s₂ ↦ Server.onClientHandler api who 0 s₂) := by
      intro s₁ hsound₁
      have hreplies' : Replies entry.originalRequest response := hreplies
      refine (Sound.write hsound₁ hreplies').bind ?_
      rintro s₂ ⟨hsound₂, hlongPoll, -, hidle₂⟩
      rw [onClientHandler_idle hidle₂]
      rw [List.append_nil] at hsound₂
      rw [← hlongPoll] at hsound₂
      exact hsound₂
    cases advances with
    | false => exact hwrite { s with clients := s.clients.put who c', node } (hput _ _)
    | true =>
      have hsound : Sound cast (s.clients.put who c') (s.longPoll ++ [entry]) := hput _ _
      exact (Sound.advanceLongPoll (s := { s with clients := s.clients.put who c', node })
        hsound).bind fun s₁ hs₁ ↦ hwrite s₁ hs₁.1
  · rw [heq]
    dsimp only
    rw [onClientHandler_idle ⟨c', Store.get_put_self _ _ _, Or.inl hwaiting⟩]
    exact hput json sta

theorem Sound.step (h : Sound cast s.clients s.longPoll) (e : Event ν) :
    Ends (fun s' ↦ Sound cast s'.clients s'.longPoll) (¬ Client.VersionFault ·)
      (Server.step api cast s e) := by
  cases e with
  | accepts who =>
    rw [Server.step]
    cases hget : s.clients.get who with
    | none =>
      refine h.put (Client.sound_new cast) rfl fun c' hget' ↦ ?_
      rw [hget] at hget'
      cases hget'
    | some c => exact h
  | arrives who pieces room =>
    rw [Server.step]
    cases hget : s.clients.get who with
    | none => exact h
    | some c =>
      dsimp only
      obtain ⟨called, c', hok, hc', hturn⟩ := ((h.client hget).arrive pieces room).advanceState
      rw [P2PClient.bind_of_ok hok]
      have hsound : Sound cast (s.clients.put who c') s.longPoll :=
        h.put_sameTurn hget hc' ⟨hturn.requests, hturn.answers, hturn.waiting⟩
      cases called with
      | false => exact hsound
      | true =>
        exact hsound.onClientHandler (s := { s with clients := s.clients.put who c' })
          (Store.get_put_self _ _ _)
  | disconnects who =>
    rw [Server.step]
    cases hget : s.clients.get who with
    | none => exact h
    | some c =>
      refine ⟨fun {who₁ c₁} hget₁ ↦ ?_, h.nodup.sublist (List.filter_sublist.map _),
        fun e he ↦ ?_, fun {who₁ c₁} hget₁ hyes ↦ ?_⟩
      · by_cases heq : who = who₁
        · rw [← heq, Store.get_remove_self] at hget₁
          cases hget₁
        · rw [Store.get_remove_of_ne _ heq] at hget₁
          exact h.client hget₁
      · obtain ⟨hmem, hne⟩ := List.mem_filter.1 he
        obtain ⟨c₁, hget₁, hrest⟩ := h.poll e hmem
        have hne' : who ≠ e.originalWho := fun heq ↦ of_decide_eq_true hne heq.symm
        exact ⟨c₁, by rw [Store.get_remove_of_ne _ hne', hget₁], hrest⟩
      · by_cases heq : who = who₁
        · rw [← heq, Store.get_remove_self] at hget₁
          cases hget₁
        · rw [Store.get_remove_of_ne _ heq] at hget₁
          obtain ⟨e, he, hwho⟩ := List.mem_map.1 (h.waits hget₁ hyes)
          refine List.mem_map.2 ⟨e, List.mem_filter.2 ⟨he, decide_eq_true ?_⟩, hwho⟩
          rw [hwho]
          exact fun h' ↦ heq h'.symm
  | changes node => exact h
  | advances => exact (Sound.advanceLongPoll_all h).mono fun s' hs' ↦ hs'.1

/-- What every connection gets, and who waits. -/
structure Serves (cast : Bytes → Option ℕ) (s : Server ν) : Prop where
  requests : ∀ {who c}, s.clients.get who = some c → c.requests <+: requestsOf cast c.received
  sent : ∀ {who c}, s.clients.get who = some c →
    c.sock.sent ++ c.responses.flatten = c.answers.flatMap ResponseData.wire
  replies : ∀ {who c}, s.clients.get who = some c →
    List.Forall₂ Replies (c.requests.take c.answers.length) c.answers
  count : ∀ {who c}, s.clients.get who = some c →
    c.requests.length = c.answers.length + c.waitingWriteResponse.toNat
  waits : ∀ {who c}, s.clients.get who = some c →
    (c.waitingWriteResponse = true ↔ who ∈ s.longPoll.map LongPollClient.originalWho)
  once : (s.longPoll.map LongPollClient.originalWho).Nodup
  last : ∀ e ∈ s.longPoll, ∃ c, s.clients.get e.originalWho = some c ∧
    c.requests.getLast? = some e.originalRequest

theorem Sound.serves (h : Sound cast s.clients s.longPoll) : Serves cast s where
  requests hget := (h.client hget).requests_start
  sent hget := (h.client hget).sent
  replies hget := (h.client hget).replies
  count hget := (h.client hget).count
  waits {who c} hget := by
    refine ⟨h.waits hget, fun hmem ↦ ?_⟩
    obtain ⟨e, he, rfl⟩ := List.mem_map.1 hmem
    obtain ⟨c', hget', hyes, -⟩ := h.poll e he
    rw [hget, Option.some_inj] at hget'
    exact hget' ▸ hyes
  once := h.nodup
  last e he := by
    obtain ⟨c, hget, -, hlast⟩ := h.poll e he
    exact ⟨c, hget, hlast⟩

end Server

end Naza.Http
