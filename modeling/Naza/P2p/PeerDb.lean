import Naza.P2pSeria

/-!
# The peer database

`PeerDB`: the lists of white and gray peers with their images in the database, the list of exclusive
nodes, bans and connection attempts, and the choice of the next peer to connect to.
-/

namespace Naza

namespace PeerDB

/-! ## Lists of peers -/

/-- A peer; the field `reserved` of a `PeerlistEntry` is not used. -/
structure Entry where
  adr : NetworkAddress
  id : UInt64 := 0
  lastSeen : Timestamp := 0
  banUntil : Timestamp := 0
  nextConnectionAttempt : Timestamp := 0
  shuffleRandom : UInt64 := 0
  error : String := ""
  deriving DecidableEq

/-- `peers_indexed`: entries in the order of their insertion, one for each address. -/
structure PeersIndexed where
  entries : List Entry := []
  unique : (entries.map Entry.adr).Nodup := by simp

namespace PeersIndexed

variable (l : PeersIndexed)

/-- `find` in the index by address. -/
def find (a : NetworkAddress) : Option Entry := l.entries.find? fun e ↦ e.adr = a

def erase (a : NetworkAddress) : PeersIndexed where
  entries := l.entries.filter fun e ↦ e.adr ≠ a
  unique := (List.filter_sublist.map Entry.adr).nodup l.unique

theorem find_eq_none_iff {l : PeersIndexed} {a : NetworkAddress} :
    l.find a = none ↔ a ∉ l.entries.map Entry.adr := by
  unfold find
  rw [List.find?_eq_none, List.mem_map]
  constructor
  · rintro h ⟨e, hmem, rfl⟩
    exact h e hmem (decide_eq_true rfl)
  · intro h e hmem heq
    exact h ⟨e, hmem, of_decide_eq_true heq⟩

/-- `insert`, which refuses an address that is there. -/
def insert (e : Entry) : PeersIndexed :=
  if h : l.find e.adr = none then
    { entries := l.entries ++ [e]
      unique := by
        rw [List.map_append, List.nodup_append]
        refine ⟨l.unique, List.nodup_singleton _, ?_⟩
        rintro a hmem b hb rfl
        obtain rfl := List.mem_singleton.1 hb
        exact find_eq_none_iff.1 h hmem }
  else l

/-- An entry in the place of the one with its address. -/
def replace (e : Entry) : PeersIndexed := (l.erase e.adr).insert e

end PeersIndexed

/-- The order of an index: by a time, the peer seen last first, then by the random number. -/
def Entry.before (time : Entry → Timestamp) (a b : Entry) : Prop :=
  time a < time b ∨ time a = time b ∧
    (b.lastSeen < a.lastSeen ∨ a.lastSeen = b.lastSeen ∧ a.shuffleRandom < b.shuffleRandom)

instance (time : Entry → Timestamp) (a b : Entry) : Decidable (a.before time b) := by
  unfold Entry.before
  infer_instance

/-- The entries in the order of an index; equal ones stand as they were inserted. -/
def PeersIndexed.sortedBy (time : Entry → Timestamp) (l : PeersIndexed) : List Entry :=
  l.entries.insertionSort fun a b ↦ ¬b.before time a

/-- Below the bound `(t, 0, 0)` of an index. -/
def Entry.below (time : Entry → Timestamp) (t : Timestamp) (e : Entry) : Bool :=
  time e < t ∨ time e = t ∧ 0 < e.lastSeen

/-! ## A list with its image -/

/-- What stands under the key of each address; `some none` cannot be read. -/
abbrev Image := NetworkAddress → Option (Option Entry)

/-- A list of peers and the part of the database with its prefix. -/
structure Table where
  list : PeersIndexed := {}
  image : Image := fun _ ↦ none

namespace Table

variable (t : Table)

/-- An entry erased and inserted again, and written with `update_db`. -/
def write (e : Entry) : Table where
  list := t.list.replace e
  image := Function.update t.image e.adr (some (some e))

/-- An entry erased, and deleted with `del_db`. -/
def delete (a : NetworkAddress) : Table where
  list := t.list.erase a
  image := Function.update t.image a none

/-- `unban` of one list. -/
def unban (now : Timestamp) : Table :=
  let unbanned := ((t.list.sortedBy Entry.banUntil).dropWhile
    (Entry.below Entry.banUntil 1)).takeWhile (Entry.below Entry.banUntil now)
  unbanned.foldl (fun t e ↦ t.write { e with banUntil := 0, nextConnectionAttempt := 0 }) t

/-- One round of `trim`. -/
def trimLast : Table :=
  match (t.list.sortedBy Entry.banUntil).getLast? with
  | none => t
  | some e => t.delete e.adr

/-- `trim` of one list. -/
def trim (count : ℕ) : Table := trimLast^[t.list.entries.length - count] t

end Table

/-! ## The database -/

/-- The settings of `Config`; the lists are sorted, so that `binary_search` is membership. -/
structure Config where
  exclusiveNodes : List NetworkAddress := []
  seedNodes : List NetworkAddress := []
  priorityNodes : List NetworkAddress := []
  grayListLimit : ℕ := 5000
  whiteListLimit : ℕ := 1000
  whitelistConnectionsPercent : UInt32 := 70

def BAN_PERIOD : Timestamp := 600
def RECONNECT_PERIOD : Timestamp := 300
def PRIORITY_RECONNECT_PERIOD : Timestamp := 30

end PeerDB

open PeerDB

structure PeerDB where
  exclusivelist : PeersIndexed := {}
  white : Table := {}
  gray : Table := {}

namespace PeerDB

/-- What the database holds under a prefix, in the order of its keys: for each address the entry
stored there, `none` if it cannot be read. -/
structure Records where
  records : List (NetworkAddress × Option Entry) := []
  unique : (records.map Prod.fst).Nodup := by simp

/-- `read_db`; what cannot be read is skipped. -/
def readDb (stored : Records) : Table where
  list := (stored.records.filterMap Prod.snd).foldl PeersIndexed.insert {}
  image a := (stored.records.find? fun r ↦ r.1 = a).map Prod.snd

section Definitions

variable (config : Config) (random : NetworkAddress → UInt64)

/-- The entry of a configured node that has not been seen yet. -/
def freshEntry (a : NetworkAddress) : Entry := { adr := a, shuffleRandom := random a }

/-- The constructor; `random` gives the numbers drawn. -/
def construct (white gray : Records) : PeerDB where
  exclusivelist := (config.exclusiveNodes.map (freshEntry random)).foldl PeersIndexed.insert {}
  white := { readDb white with
    list :=
      (config.seedNodes.map (freshEntry random)).foldl PeersIndexed.insert (readDb white).list }
  gray := readDb gray

def isPriority (a : NetworkAddress) : Bool := a ∈ config.priorityNodes

def isSeed (a : NetworkAddress) : Bool := a ∈ config.seedNodes

variable (db : PeerDB)

/-- `trim`. -/
def trim : PeerDB :=
  { db with
    gray := db.gray.trim config.grayListLimit
    white := db.white.trim config.whiteListLimit }

/-- `unban`. -/
def unban (now : Timestamp) : PeerDB :=
  { db with gray := db.gray.unban now, white := db.white.unban now }

/-- `add_incoming_peer_impl`. -/
def addIncomingPeerImpl (db : PeerDB) (a : NetworkAddress) (id random : UInt64) : PeerDB :=
  if a.port = 0 then db
  else if db.white.list.find a ≠ none then db
  else if db.gray.list.find a ≠ none then db
  else { db with gray := db.gray.write { adr := a, id, shuffleRandom := random } }

/-- `merge_peerlist_from_p2p`; a number is drawn for each peer. -/
def mergePeerlistFromP2p (outer : List (PeerlistEntry × UInt64)) (now : Timestamp) : PeerDB :=
  (outer.foldl (fun db p ↦ db.addIncomingPeerImpl p.1.adr p.1.id p.2) (db.unban now)).trim config

/-- `add_incoming_peer`. -/
def addIncomingPeer (a : NetworkAddress) (id random : UInt64) (now : Timestamp) : PeerDB :=
  ((db.unban now).addIncomingPeerImpl a id random).trim config

/-- `set_peer_just_seen`. -/
def setPeerJustSeen (id : UInt64) (a : NetworkAddress) (random : UInt64) (now : Timestamp)
    (resetNextConnectionAttempt : Bool) : PeerDB :=
  let gray := if db.gray.list.find a ≠ none then db.gray.delete a else db.gray
  let entry := (db.white.list.find a).getD { adr := a, shuffleRandom := random }
  let next :=
    if resetNextConnectionAttempt = true ∧ isSeed config a = false then 0
    else entry.nextConnectionAttempt
  { db with
    gray
    white := db.white.write { entry with
      id, banUntil := 0, nextConnectionAttempt := next, lastSeen := now } }

/-- `delay_connection_attempt`. -/
def delayConnectionAttempt (a : NetworkAddress) (now : Timestamp) : PeerDB :=
  match db.white.list.find a with
  | none => db
  | some entry =>
    let period := if isPriority config a = false then BAN_PERIOD else PRIORITY_RECONNECT_PERIOD
    { db with white := db.white.write { entry with nextConnectionAttempt := now + period } }

/-- An entry banned for some time. -/
def Entry.ban (e : Entry) (error : String) (banUntil : Timestamp) : Entry :=
  { e with error, banUntil, nextConnectionAttempt := banUntil }

/-- An entry of one list banned, if there is one. -/
def Table.ban (t : Table) (a : NetworkAddress) (error : String) (banUntil : Timestamp) : Table :=
  match t.list.find a with
  | none => t
  | some entry => t.write (entry.ban error banUntil)

/-- `set_peer_banned`. -/
def setPeerBanned (a : NetworkAddress) (error : String) (now : Timestamp) : PeerDB :=
  match db.exclusivelist.find a with
  | some entry =>
    let entry := entry.ban error (now + PRIORITY_RECONNECT_PERIOD)
    { db with exclusivelist := db.exclusivelist.replace entry }
  | none =>
    let period := if isPriority config a = true then PRIORITY_RECONNECT_PERIOD else BAN_PERIOD
    let whitePeriod := if isSeed config a = true then PRIORITY_RECONNECT_PERIOD else period
    { db with
      gray := db.gray.ban a error (now + period)
      white := db.white.ban a error (now + whitePeriod) }

/-- `is_peer_banned`. -/
def isPeerBanned (a : NetworkAddress) (now : Timestamp) : Bool :=
  (db.gray.list.find a).any (fun e ↦ now < e.banUntil) ||
    (db.white.list.find a).any fun e ↦ now < e.banUntil

/-- The first entry that is due and not skipped, in the order of the next attempts. -/
def firstDue (l : PeersIndexed) (now : Timestamp) (skip : NetworkAddress → Bool) : Option Entry :=
  ((l.sortedBy Entry.nextConnectionAttempt).takeWhile
    (Entry.below Entry.nextConnectionAttempt now)).find? fun e ↦ !skip e.adr

/-- The entry of a list that a connection is attempted to. -/
def Table.attempt (config : Config) (t : Table) (e : Entry) (now : Timestamp) : Table :=
  let period :=
    if isPriority config e.adr = true then PRIORITY_RECONNECT_PERIOD else RECONNECT_PERIOD
  t.write { e with nextConnectionAttempt := now + period }

/-- `get_peer_to_connect`: the address, and the database with its next attempt. -/
def getPeerToConnect (connected : List NetworkAddress) (random : UInt32) (now : Timestamp) :
    Option NetworkAddress × PeerDB :=
  if db.exclusivelist.entries ≠ [] then
    match firstDue db.exclusivelist now fun a ↦ a ∈ connected with
    | none => (none, db)
    | some entry =>
      let next := now + PRIORITY_RECONNECT_PERIOD
      (some entry.adr, { db with
        exclusivelist := db.exclusivelist.replace { entry with nextConnectionAttempt := next } })
  else
    let db := db.unban now
    let enoughConnectedSeeds : Bool := 2 ≤ (config.seedNodes.filter fun a ↦ a ∈ connected).length
    let skip := fun a ↦ decide (a ∈ connected) || (enoughConnectedSeeds && isSeed config a)
    let useWhite := (firstDue db.white.list now skip).filter fun e ↦
      random % 100 < config.whitelistConnectionsPercent ∧ e.nextConnectionAttempt ≤ now
    let useGray := (firstDue db.gray.list now skip).filter fun e ↦ e.nextConnectionAttempt ≤ now
    match useWhite, useGray with
    | some entry, _ => (some entry.adr, { db with white := db.white.attempt config entry now })
    | none, some entry => (some entry.adr, { db with gray := db.gray.attempt config entry now })
    | none, none => (none, db)

/-- The calls, with the numbers drawn in them. -/
inductive Call where
  | mergePeerlistFromP2p (outer : List (PeerlistEntry × UInt64))
  | addIncomingPeer (a : NetworkAddress) (id random : UInt64)
  | setPeerJustSeen (id : UInt64) (a : NetworkAddress) (random : UInt64) (reset : Bool)
  | setPeerBanned (a : NetworkAddress) (error : String)
  | delayConnectionAttempt (a : NetworkAddress)
  | unban
  | getPeerToConnect (connected : List NetworkAddress) (random : UInt32)

/-- One call at a time. -/
def step (db : PeerDB) (call : Timestamp × Call) : PeerDB :=
  match call.2 with
  | .mergePeerlistFromP2p outer => db.mergePeerlistFromP2p config outer call.1
  | .addIncomingPeer a id random => db.addIncomingPeer config a id random call.1
  | .setPeerJustSeen id a random reset => db.setPeerJustSeen config id a random call.1 reset
  | .setPeerBanned a error => db.setPeerBanned config a error call.1
  | .delayConnectionAttempt a => db.delayConnectionAttempt config a call.1
  | .unban => db.unban call.1
  | .getPeerToConnect connected random => (db.getPeerToConnect config connected random call.1).2

/-- The database after some calls. -/
def run (calls : List (Timestamp × Call)) : PeerDB := calls.foldl (step config) db

end Definitions

end PeerDB

end Naza
