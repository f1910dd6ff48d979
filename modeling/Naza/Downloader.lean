import Naza.CryptoNote
import Naza.Lib.Check
import Naza.Lib.Store

/-!
# The downloader

`DownloaderV11`: the chain asked from one peer, the window of cells whose blocks are downloaded from
all good peers, the queue of the threads that prepare blocks, and the handlers of the events.  What
is sent is handed to the socket, which reports a failure later.  An event has one random draw, which
serves for every choice made in it.
-/

open Lib

namespace Naza

namespace DownloaderV11

/-- A connection, `P2PClientNazacoin *`. -/
abbrev Client := ℕ

inductive Status where
  | downloading
  | downloaded
  | preparing
  | prepared
  deriving DecidableEq

/-- A block of the window.  Its sources, times and contents are left out. -/
structure DownloadCell where
  bid : Hash
  expectedHeight : Height := 0
  downloadingClient : Option Client := none
  status : Status := .downloading
  protectFromDisconnect : Bool := false

/-- What the handlers read of the node, its clock and its random numbers. -/
structure Node where
  /-- blocks are being read from a file or imported -/
  importing : Bool := false
  incoming : Client → Bool := fun _ ↦ false
  version : Client → UInt8 := fun _ ↦ 1
  currentHeight : Client → Height := fun _ ↦ 0
  topId : Client → Hash := fun _ ↦ 0
  tipHeight : Height := 0
  hasBlock : Hash → Bool := fun _ ↦ false
  hasHeader : Hash → Bool := fun _ ↦ false
  p2pDefaultConnectionsCount : ℕ := 8
  random : ℕ := 0
  /-- requested longer ago than `2 * SYNC_TIMEOUT` -/
  timedOut : DownloadCell → Bool := fun _ ↦ false
  /-- requested longer ago than `SYNC_TIMEOUT` -/
  slack : DownloadCell → Bool := fun _ ↦ false

end DownloaderV11

open DownloaderV11

structure DownloaderV11 where
  goodClients : Store Client ℕ := ∅
  totalDownloadingBlocks : ℕ := 0
  whoDownloadedBlock : List Client := []
  chainClient : Option Client := none
  chainRequestSent : Bool := false
  downloadChain : List DownloadCell := []
  chainStartHeight : Height := 0
  chain : List Hash := []
  /-- the blocks queued for the threads -/
  work : List Hash := []
  /-- the blocks that threads are preparing -/
  inThreads : List Hash := []
  preparedBlocks : Store Hash Unit := ∅

namespace DownloaderV11

def TOTAL_DOWNLOAD_BLOCKS : ℕ := 400
def TOTAL_DOWNLOAD_WINDOW : ℕ := 2000
def GOOD_LAG : Height := 5

/-! ## Single cells -/

/-- `start_download`. -/
def startDownload (dc : DownloadCell) (who : Client) (d : DownloaderV11) :
    DownloadCell × DownloaderV11 :=
  ({ dc with downloadingClient := some who }, { d with
    goodClients := d.goodClients.put who ((d.goodClients.get who).getD 0 + 1)
    totalDownloadingBlocks := d.totalDownloadingBlocks + 1 })

/-- `stop_download`. -/
def stopDownload (dc : DownloadCell) (success : Bool) (d : DownloaderV11) :
    Except Fault (DownloadCell × DownloaderV11) :=
  match dc.status, dc.downloadingClient with
  | .downloading, some who => do
    let counter := (d.goodClients.get who).getD 0
    invariant (counter ≠ 0 ∧ d.totalDownloadingBlocks ≠ 0)
      "DownloadCell reference to good client not found"
    return ({ dc with
        downloadingClient := none
        status := if success then .downloaded else .downloading },
      { d with
        goodClients := d.goodClients.put who (counter - 1)
        totalDownloadingBlocks := d.totalDownloadingBlocks - 1
        whoDownloadedBlock :=
          if success then d.whoDownloadedBlock ++ [who] else d.whoDownloadedBlock })
  | _, _ => return (dc, d)

/-- Cells are stopped from the last one on. -/
def stopAll : List DownloadCell → DownloaderV11 → Except Fault DownloaderV11
  | [], d => .ok d
  | dc :: cells, d => do
    let d ← stopAll cells d
    let (_, d) ← stopDownload dc false d
    return d

/-! ## The recursive handlers -/

/-- `on_disconnect`, in front of an `advance_download`. -/
def onDisconnectBy (advance : DownloaderV11 → Except Fault DownloaderV11) (node : Node)
    (who : Client) (d : DownloaderV11) : Except Fault DownloaderV11 :=
  if node.incoming who = true then .ok d
  else do
    let counter := (d.goodClients.get who).getD 0
    invariant (counter ≤ d.totalDownloadingBlocks)
      "total_downloading_blocks mismatch in disconnect"
    let downloadChain := d.downloadChain.map fun dc ↦
      if dc.status = .downloading ∧ dc.downloadingClient = some who then
        { dc with downloadingClient := none }
      else dc
    let isChainClient : Bool := d.chainClient = some who
    advance { d with
      totalDownloadingBlocks := d.totalDownloadingBlocks - counter
      goodClients := d.goodClients.remove who
      whoDownloadedBlock := d.whoDownloadedBlock.filter fun a ↦ a ≠ who
      downloadChain
      chainClient := if isChainClient then none else d.chainClient
      chainRequestSent := if isChainClient then false else d.chainRequestSent }

/-- `advance_chain`. -/
def advanceChainBy (advance : DownloaderV11 → Except Fault DownloaderV11) (node : Node)
    (d : DownloaderV11) : Except Fault DownloaderV11 :=
  if d.chain ≠ [] ∨ d.downloadChain ≠ [] ∨ d.chainRequestSent = true then .ok d
  else
    let d := { d with chainClient := none }
    let clients := d.goodClients.toList.map Prod.fst
    let laggingClients := clients.filter fun who ↦
      node.currentHeight who + GOOD_LAG < node.tipHeight
    let worthClients := clients.filter fun who ↦ node.hasHeader (node.topId who) = false
    if node.p2pDefaultConnectionsCount / 4 < laggingClients.length then
      match laggingClients with
      | who :: _ => onDisconnectBy advance node who d
      | [] => .ok d
    else
      match worthClients[node.random % worthClients.length]? with
      | none => .ok d
      | some who => .ok { d with chainClient := some who, chainRequestSent := true }

/-- The new cells of `advance_download`. -/
def fillWindow (d : DownloaderV11) : DownloaderV11 :=
  let bids := d.chain.take (TOTAL_DOWNLOAD_WINDOW - d.downloadChain.length)
  { d with
    downloadChain := d.downloadChain ++ bids.mapIdx fun i bid ↦
      { bid, expectedHeight := d.chainStartHeight + UInt32.ofNat i }
    chain := d.chain.drop bids.length
    chainStartHeight := d.chainStartHeight + UInt32.ofNat bids.length }

/-- The client to ask for a block: the least busy for the blocks it has delivered lately. -/
def readyClient (node : Node) (height : Height) (d : DownloaderV11) : Option Client :=
  (d.goodClients.toList.foldl (fun ready (who, counter) ↦
    let speed := max 1 (min (UInt64.ofNat (TOTAL_DOWNLOAD_BLOCKS / 4))
      (UInt64.ofNat (d.whoDownloadedBlock.count who)))
    if UInt64.ofNat counter * ready.2.2 < ready.2.1 * speed ∧ height ≤ node.currentHeight who then
      (some who, UInt64.ofNat counter, speed)
    else ready) ((none : Option Client), (0xFFFFFFFFFFFFFFFF : UInt64), (1 : UInt64))).1

/-- The loop of `advance_download` over the cells; true where nobody can be asked and the cells from
there on are dropped. -/
def assignCells (node : Node) : List DownloadCell → DownloaderV11 →
    Except Fault (List DownloadCell × DownloaderV11 × Bool)
  | [], d => .ok ([], d, false)
  | dc :: cells, d =>
    if dc.status ≠ .downloading ∨ dc.downloadingClient ≠ none then do
      let (cells, d, cleaned) ← assignCells node cells d
      return (dc :: cells, d, cleaned)
    else if TOTAL_DOWNLOAD_BLOCKS ≤ d.totalDownloadingBlocks then .ok (dc :: cells, d, false)
    else
      match (d.readyClient node dc.expectedHeight).or d.chainClient with
      | none => do
        let d ← stopAll (dc :: cells) d
        return ([], d, true)
      | some who => do
        let (dc, d) := startDownload dc who d
        let (cells, d, cleaned) ← assignCells node cells d
        return (dc :: cells, d, cleaned)

/-- The client of the first cell, if it is too slow. -/
def slowClient (node : Node) (d : DownloaderV11) : Option Client :=
  match d.downloadChain with
  | [] => none
  | front :: _ =>
    if front.status = .downloading ∧ front.protectFromDisconnect = false ∧
        (node.timedOut front = true ∨ d.totalDownloadingBlocks < TOTAL_DOWNLOAD_BLOCKS ∧
          TOTAL_DOWNLOAD_WINDOW ≤ d.downloadChain.length ∧ 1 < d.goodClients.toList.length) then
      front.downloadingClient
    else none

/-- `advance_download`; each round that is nested in another has one client less. -/
def advanceDownloadBy : ℕ → Node → DownloaderV11 → Except Fault DownloaderV11
  | 0, _, _ => .error .diverged
  | fuel + 1, node, d =>
    if node.importing = true then .ok d
    else do
      let d ← advanceChainBy (advanceDownloadBy fuel node) node d.fillWindow
      let d := { d with whoDownloadedBlock :=
        d.whoDownloadedBlock.drop (d.whoDownloadedBlock.length - TOTAL_DOWNLOAD_BLOCKS) }
      let (cells, d, cleaned) ← assignCells node d.downloadChain d
      let d := { d with downloadChain := cells }
      if cleaned = true then
        advanceChainBy (advanceDownloadBy fuel node) node { d with chain := [] }
      else
        match slowClient node d with
        | none => return d
        | some who =>
          let downloadChain := d.downloadChain.map fun dc ↦
            if dc.downloadingClient = some who then { dc with protectFromDisconnect := true }
            else dc
          onDisconnectBy (advanceDownloadBy fuel node) node who { d with downloadChain }

/-- The number of good clients. -/
def clients (d : DownloaderV11) : ℕ := d.goodClients.total fun _ ↦ 1

/-- `advance_download`. -/
def advanceDownload (node : Node) (d : DownloaderV11) : Except Fault DownloaderV11 :=
  advanceDownloadBy (d.clients + 1) node d

/-- `on_disconnect`, and the `disconnect` of a client. -/
def onDisconnect (node : Node) (who : Client) (d : DownloaderV11) : Except Fault DownloaderV11 :=
  onDisconnectBy (advanceDownload node) node who d

/-! ## Handlers -/

/-- `on_connect`. -/
def onConnect (node : Node) (who : Client) (d : DownloaderV11) : Except Fault DownloaderV11 :=
  if node.incoming who = true then .ok d
  else if node.version who = 1 then
    let goodClients :=
      match d.goodClients.get who with
      | none => d.goodClients.put who 0
      | some _ => d.goodClients
    advanceDownload node { d with goodClients }
  else .ok d

/-- `on_chain_timer`. -/
def onChainTimer (node : Node) (d : DownloaderV11) : Except Fault DownloaderV11 :=
  match d.chainClient with
  | none => .ok d
  | some who => d.onDisconnect node who

/-- `on_download_timer`. -/
def onDownloadTimer (node : Node) (d : DownloaderV11) : Except Fault DownloaderV11 :=
  match d.downloadChain with
  | [] => .ok d
  | front :: _ =>
    match front.downloadingClient with
    | none => .ok d
    | some who =>
      if front.status = .downloading ∧ front.protectFromDisconnect = true ∧ node.slack front = true
      then d.onDisconnect node who
      else .ok d

/-- `on_msg_notify_request_chain`: the answer with a chain. -/
def onMsgNotifyRequestChain (node : Node) (who : Client) (startHeight : Height)
    (blockIds : List Hash) (d : DownloaderV11) : Except Fault DownloaderV11 :=
  if d.chainClient ≠ some who ∨ d.chainRequestSent = false then .ok d
  else do
    let chain := blockIds.dropWhile fun bid ↦
      node.hasBlock bid || decide (bid ∈ d.downloadChain.map DownloadCell.bid)
    let d := { d with
      chainRequestSent := false
      chain
      chainStartHeight := startHeight + UInt32.ofNat (blockIds.length - chain.length) }
    let d ← (if blockIds = [] then d.onDisconnect node who else .ok d)
    d.advanceDownload node

/-- The cell that a client delivers. -/
def Delivers (who : Client) (bid : Hash) (dc : DownloadCell) : Prop :=
  dc.status = .downloading ∧ dc.downloadingClient = some who ∧ dc.bid = bid

instance (who : Client) (bid : Hash) (dc : DownloadCell) : Decidable (Delivers who bid dc) := by
  unfold Delivers
  infer_instance

/-- A block delivered: the first cell that waits for it is handed to the threads. -/
def receiveBlock (who : Client) (bid : Hash) : List DownloadCell → DownloaderV11 →
    Except Fault (List DownloadCell × DownloaderV11)
  | [], d => .ok ([], d)
  | dc :: cells, d =>
    if Delivers who bid dc then do
      let (dc, d) ← stopDownload dc true d
      return ({ dc with status := .preparing } :: cells, { d with work := d.work ++ [dc.bid] })
    else do
      let (cells, d) ← receiveBlock who bid cells d
      return (dc :: cells, d)

/-- The blocks of an answer; one that cannot be parsed disconnects. -/
def receiveBlocks (node : Node) (who : Client) : List (Option Hash) → DownloaderV11 →
    Except Fault DownloaderV11
  | [], d => .ok d
  | none :: _, d => d.onDisconnect node who
  | some bid :: blocks, d => do
    let (cells, d) ← receiveBlock who bid d.downloadChain d
    receiveBlocks node who blocks { d with downloadChain := cells }

/-- A block that the client does not have is asked from the client of the chain; true where there is
no other and the cells from there on are dropped. -/
def missBlock (who : Client) (bid : Hash) : List DownloadCell → DownloaderV11 →
    Except Fault (List DownloadCell × DownloaderV11 × Bool)
  | [], d => .ok ([], d, false)
  | dc :: cells, d =>
    if Delivers who bid dc then do
      let (dc, d) ← stopDownload dc false d
      match d.chainClient.filter fun a ↦ a ≠ who with
      | none =>
        let d ← stopAll (dc :: cells) d
        return ([], d, true)
      | some other =>
        let (dc, d) := startDownload dc other d
        let (cells, d, cleaned) ← missBlock who bid cells d
        return (dc :: cells, d, cleaned)
    else do
      let (cells, d, cleaned) ← missBlock who bid cells d
      return (dc :: cells, d, cleaned)

/-- The missed blocks of an answer, and `advance_download`. -/
def missBlocks (node : Node) (who : Client) : List Hash → DownloaderV11 →
    Except Fault DownloaderV11
  | [], d => d.advanceDownload node
  | bid :: missedIds, d => do
    let (cells, d, cleaned) ← missBlock who bid d.downloadChain d
    let d := { d with downloadChain := cells }
    if cleaned = true then advanceDownload node { d with chain := [] }
    else missBlocks node who missedIds d

/-- `on_msg_notify_request_objects`: the answer with blocks. -/
def onMsgNotifyRequestObjects (node : Node) (who : Client) (blocks : List (Option Hash))
    (missedIds : List Hash) (d : DownloaderV11) : Except Fault DownloaderV11 := do
  let d ← receiveBlocks node who blocks d
  missBlocks node who missedIds d

/-- The first cell that waits for a prepared block gets it. -/
def takePrepared (bid : Hash) : List DownloadCell → List DownloadCell
  | [] => []
  | dc :: cells =>
    if dc.status = .preparing ∧ dc.bid = bid then { dc with status := .prepared } :: cells
    else dc :: takePrepared bid cells

/-- The prepared blocks are handed to their cells. -/
def takeAllPrepared (d : DownloaderV11) : DownloaderV11 :=
  { d with
    downloadChain := (d.preparedBlocks.toList.map Prod.fst).foldl
      (fun cells bid ↦ takePrepared bid cells) d.downloadChain
    preparedBlocks := ∅ }

/-- The cells that are added to the block chain, at most `limit`. -/
def addedCells (limit : ℕ) (d : DownloaderV11) : ℕ :=
  min limit (d.downloadChain.takeWhile fun dc ↦ dc.status = .prepared).length

/-- `on_idle`; the clock ends the loop after `limit` blocks, and `node` is what they leave. -/
def onIdle (node : Node) (limit : ℕ) (d : DownloaderV11) : Except Fault DownloaderV11 :=
  let d := d.takeAllPrepared
  let added := d.addedCells limit
  if added = 0 then .ok d
  else advanceDownload node { d with downloadChain := d.downloadChain.drop added }

/-! ## Runs -/

inductive Event where
  | connect (who : Client)
  | disconnect (who : Client)
  | chain (who : Client) (startHeight : Height) (blockIds : List Hash)
  | objects (who : Client) (blocks : List (Option Hash)) (missedIds : List Hash)
  | idle (limit : ℕ)
  | chainTimer
  | downloadTimer
  /-- `advance_download` after a timed sync or a new block -/
  | advance
  /-- a thread takes a block from the queue -/
  | threadTakes
  /-- a thread has prepared a block -/
  | threadPrepares (bid : Hash)

/-- One event. -/
def step (d : DownloaderV11) (e : Node × Event) : Except Fault DownloaderV11 :=
  match e.2 with
  | .connect who => d.onConnect e.1 who
  | .disconnect who => d.onDisconnect e.1 who
  | .chain who startHeight blockIds => d.onMsgNotifyRequestChain e.1 who startHeight blockIds
  | .objects who blocks missedIds => d.onMsgNotifyRequestObjects e.1 who blocks missedIds
  | .idle limit => d.onIdle e.1 limit
  | .chainTimer => d.onChainTimer e.1
  | .downloadTimer => d.onDownloadTimer e.1
  | .advance => d.advanceDownload e.1
  | .threadTakes =>
    match d.work with
    | [] => .ok d
    | bid :: work => .ok { d with work, inThreads := d.inThreads ++ [bid] }
  | .threadPrepares bid =>
    if bid ∈ d.inThreads then
      .ok { d with
        inThreads := d.inThreads.erase bid
        preparedBlocks := d.preparedBlocks.put bid () }
    else .ok d

/-- The downloader after some events. -/
def run (events : List (Node × Event)) : Except Fault DownloaderV11 := events.foldlM step {}

end DownloaderV11

end Naza
