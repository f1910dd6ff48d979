import Naza.P2p.PeerDb

/-!
# The lists of peers over a run

No address is in both lists, each list is its image in the database, and no peer that is connected
or banned is chosen, if the stored database agrees with the configuration and the clock stays below
2^32.
-/

namespace Naza

namespace PeerDB

/-! ## Lists -/

namespace PeersIndexed

variable {l : PeersIndexed} {a b : NetworkAddress} {e : Entry}

theorem adr_of_find (h : l.find a = some e) : e.adr = a := by
  unfold find at h
  simpa using List.find?_some h

theorem mem_of_find (h : l.find a = some e) : e ∈ l.entries := by
  unfold find at h
  exact List.mem_of_find?_eq_some h

theorem find_of_mem (h : e ∈ l.entries) : l.find e.adr = some e := by
  cases hfind : l.find e.adr with
  | none => exact absurd (List.mem_map_of_mem h) (find_eq_none_iff.1 hfind)
  | some e' =>
    have hsame := List.inj_on_of_nodup_map l.unique (mem_of_find hfind) h (adr_of_find hfind)
    rw [hsame]

theorem find_erase (l : PeersIndexed) (a b : NetworkAddress) :
    (l.erase a).find b = if a = b then none else l.find b := by
  unfold erase find
  rw [List.find?_filter]
  split
  · next h =>
    subst h
    rw [List.find?_eq_none]
    intro e _ he
    simp at he
  · next h =>
    congr 1
    funext e
    by_cases hb : e.adr = b
    · simp [hb, Ne.symm h]
    · simp [hb]

theorem find_insert (l : PeersIndexed) (e : Entry) (b : NetworkAddress) :
    (l.insert e).find b = (l.find b).or (if e.adr = b then some e else none) := by
  unfold insert
  split
  · next h =>
    unfold find at h ⊢
    rw [List.find?_append, List.find?_singleton]
    simp
  · next h =>
    by_cases hb : e.adr = b
    · subst hb
      rw [Option.or_of_isSome (Option.isSome_iff_ne_none.2 h)]
    · rw [if_neg hb, Option.or_none]

theorem find_foldl_insert (l : PeersIndexed) (es : List Entry) (b : NetworkAddress) :
    (es.foldl insert l).find b = (l.find b).or (es.find? fun e ↦ e.adr = b) := by
  induction es generalizing l with
  | nil => simp
  | cons e es ih =>
    rw [List.foldl_cons, ih, find_insert, Option.or_assoc, List.find?_cons]
    congr 1
    by_cases hb : e.adr = b
    · simp [hb]
    · simp [hb]

theorem find_replace (l : PeersIndexed) (e : Entry) (b : NetworkAddress) :
    (l.replace e).find b = if e.adr = b then some e else l.find b := by
  unfold replace
  rw [find_insert, find_erase]
  split
  · rfl
  · rw [Option.or_none]

theorem mem_sortedBy {time : Entry → Timestamp} : e ∈ l.sortedBy time ↔ e ∈ l.entries :=
  List.mem_insertionSort _

end PeersIndexed

/-! ## Tables -/

/-- What is known of each entry, and which entries may be missing in the image. -/
structure Table.Sound (ok fresh : Entry → Prop) (t : Table) : Prop where
  image : ∀ a, t.image a = (t.list.find a).map some ∨
    t.image a = none ∧ ∃ e, t.list.find a = some e ∧ fresh e
  entries : ∀ a e, t.list.find a = some e → ok e

namespace Table

variable {ok fresh : Entry → Prop} {t : Table}

theorem find_write (t : Table) (e : Entry) (a : NetworkAddress) :
    (t.write e).list.find a = if e.adr = a then some e else t.list.find a :=
  t.list.find_replace e a

theorem find_delete (t : Table) (a b : NetworkAddress) :
    (t.delete a).list.find b = if a = b then none else t.list.find b :=
  t.list.find_erase a b

theorem image_write (t : Table) (e : Entry) (a : NetworkAddress) :
    (t.write e).image a = if e.adr = a then some (some e) else t.image a := by
  change Function.update t.image e.adr (some (some e)) a = _
  rw [Function.update_apply]
  simp only [eq_comm]

theorem image_delete (t : Table) (a b : NetworkAddress) :
    (t.delete a).image b = if a = b then none else t.image b := by
  change Function.update t.image a none b = _
  rw [Function.update_apply]
  simp only [eq_comm]

theorem Sound.write (h : t.Sound ok fresh) {e : Entry} (he : ok e) :
    (t.write e).Sound ok fresh := by
  constructor
  · intro a
    rw [find_write, image_write]
    by_cases ha : e.adr = a
    · rw [if_pos ha, if_pos ha]
      exact Or.inl rfl
    · rw [if_neg ha, if_neg ha]
      exact h.image a
  · intro a e' hfind
    rw [find_write] at hfind
    split at hfind
    · exact Option.some.inj hfind ▸ he
    · exact h.entries a e' hfind

theorem Sound.delete (h : t.Sound ok fresh) (a : NetworkAddress) :
    (t.delete a).Sound ok fresh := by
  constructor
  · intro b
    rw [find_delete, image_delete]
    by_cases hb : a = b
    · rw [if_pos hb, if_pos hb]
      exact Or.inl rfl
    · rw [if_neg hb, if_neg hb]
      exact h.image b
  · intro b e hfind
    rw [find_delete] at hfind
    split at hfind
    · cases hfind
    · exact h.entries b e hfind

/-! ## Trimming -/

theorem Sound.trimLast (h : t.Sound ok fresh) : t.trimLast.Sound ok fresh := by
  unfold Table.trimLast
  split
  · exact h
  · exact h.delete _

theorem Sound.trim (h : t.Sound ok fresh) (count : ℕ) : (t.trim count).Sound ok fresh := by
  unfold Table.trim
  generalize t.list.entries.length - count = n
  induction n generalizing t with
  | zero => exact h
  | succ n ih => exact ih h.trimLast

theorem find_trim {a : NetworkAddress} (count : ℕ) (h : t.list.find a = none) :
    (t.trim count).list.find a = none := by
  unfold trim
  generalize t.list.entries.length - count = n
  induction n generalizing t with
  | zero => exact h
  | succ n ih =>
    refine ih ?_
    unfold trimLast
    split
    · exact h
    · rw [find_delete, h, ite_self]

/-! ## Lifting bans -/

/-- The entry of an unbanned peer. -/
def lifted (e : Entry) : Entry := { e with banUntil := 0, nextConnectionAttempt := 0 }

theorem find_foldl_write (es : List Entry) (a : NetworkAddress) {e : Entry}
    (h : (es.foldl (fun t e ↦ t.write (lifted e)) t).list.find a = some e) :
    t.list.find a = some e ∨ ∃ o ∈ es, o.adr = a := by
  induction es generalizing t with
  | nil => exact Or.inl h
  | cons o es ih =>
    rcases ih h with hfind | ⟨o', hmem, ha⟩
    · rw [find_write] at hfind
      split at hfind
      · next ha => exact Or.inr ⟨o, List.mem_cons_self, ha⟩
      · exact Or.inl hfind
    · exact Or.inr ⟨o', List.mem_cons_of_mem _ hmem, ha⟩

/-- A ban is lifted only when it has ended. -/
theorem find_unban {now : Timestamp} {a : NetworkAddress} {e : Entry}
    (h : (t.unban now).list.find a = some e) :
    ∃ o, t.list.find a = some o ∧ (o = e ∨ o.banUntil ≤ now) := by
  rcases find_foldl_write _ a h with hfind | ⟨o, hmem, rfl⟩
  · exact ⟨e, hfind, Or.inl rfl⟩
  · have hbelow := List.mem_takeWhile_imp hmem
    have hentry : o ∈ t.list.entries := by
      have hsorted := (List.dropWhile_sublist _).mem ((List.takeWhile_sublist _).mem hmem)
      exact PeersIndexed.mem_sortedBy.1 hsorted
    refine ⟨o, PeersIndexed.find_of_mem hentry, Or.inr ?_⟩
    unfold Entry.below at hbelow
    rcases of_decide_eq_true hbelow with hlt | ⟨heq, _⟩
    · exact UInt32.le_of_lt hlt
    · exact UInt32.le_of_eq heq

theorem find_unban_ne_none {now : Timestamp} {a : NetworkAddress} (h : t.list.find a ≠ none) :
    (t.unban now).list.find a ≠ none := by
  unfold unban
  dsimp only
  generalize ((t.list.sortedBy Entry.banUntil).dropWhile
    (Entry.below Entry.banUntil 1)).takeWhile (Entry.below Entry.banUntil now) = es
  induction es generalizing t with
  | nil => exact h
  | cons e es ih =>
    refine ih ?_
    rw [find_write]
    split
    · exact Option.some_ne_none _
    · exact h

theorem Sound.unban (h : t.Sound ok fresh) (hlifted : ∀ e, ok e → ok (lifted e))
    (now : Timestamp) : (t.unban now).Sound ok fresh := by
  have hfold : ∀ (es : List Entry) (t : Table), t.Sound ok fresh → (∀ e ∈ es, ok e) →
      (es.foldl (fun t e ↦ t.write (lifted e)) t).Sound ok fresh := by
    intro es
    induction es with
    | nil => exact fun _ h _ ↦ h
    | cons e es ih =>
      intro t h hes
      exact ih _ (h.write (hlifted e (hes e List.mem_cons_self)))
        fun e' hmem ↦ hes e' (List.mem_cons_of_mem _ hmem)
  refine hfold _ t h fun e hmem ↦ ?_
  have hsorted := (List.dropWhile_sublist _).mem ((List.takeWhile_sublist _).mem hmem)
  exact h.entries e.adr e (PeersIndexed.find_of_mem (PeersIndexed.mem_sortedBy.1 hsorted))

theorem find_unban_none {now : Timestamp} {a : NetworkAddress} (h : t.list.find a = none) :
    (t.unban now).list.find a = none := by
  cases hfind : (t.unban now).list.find a with
  | none => rfl
  | some e =>
    obtain ⟨o, ho, _⟩ := find_unban hfind
    rw [h] at ho
    cases ho

end Table

/-! ## Bans -/

/-- What `delay_connection_attempt` waits. -/
def delayPeriod (config : Config) (a : NetworkAddress) : Timestamp :=
  if isPriority config a = false then BAN_PERIOD else PRIORITY_RECONNECT_PERIOD

/-- No connection is attempted under a ban, a ban ends before a delay would, and the lists ban no
exclusive node. -/
structure Entry.Ok (config : Config) (now : Timestamp) (e : Entry) : Prop where
  attempt : e.banUntil ≤ e.nextConnectionAttempt
  delay : e.banUntil.toNat ≤ now.toNat + (delayPeriod config e.adr).toNat
  exclusive : e.adr ∈ config.exclusiveNodes → e.banUntil = 0

/-- A seed node that has never been updated. -/
def Entry.Fresh (config : Config) (e : Entry) : Prop :=
  e.adr ∈ config.seedNodes ∧ e = { adr := e.adr, shuffleRandom := e.shuffleRandom }

/-- No address is in both lists, and the lists are what the database holds. -/
structure ListsSound (config : Config) (db : PeerDB) : Prop where
  disjoint : ∀ a, db.white.list.find a = none ∨ db.gray.list.find a = none
  white : ∀ a, db.white.image a = (db.white.list.find a).map some ∨
    db.white.image a = none ∧ ∃ e, db.white.list.find a = some e ∧ e.Fresh config
  gray : ∀ a, db.gray.image a = (db.gray.list.find a).map some

/-- With what the choice of a peer needs. -/
structure Consistent (config : Config) (now : Timestamp) (db : PeerDB) : Prop where
  disjoint : ∀ a, db.white.list.find a = none ∨ db.gray.list.find a = none
  white : db.white.Sound (Entry.Ok config now) (Entry.Fresh config)
  gray : db.gray.Sound (Entry.Ok config now) fun _ ↦ False
  exclusive : ∀ a, db.exclusivelist.find a ≠ none ↔ a ∈ config.exclusiveNodes

section Calls

variable {config : Config} {now : Timestamp} {db : PeerDB}

theorem Entry.Ok.later {e : Entry} {now' : Timestamp} (h : e.Ok config now) (hle : now ≤ now') :
    e.Ok config now' := by
  have hle := UInt32.le_iff_toNat_le.1 hle
  have hdelay := h.delay
  exact ⟨h.attempt, by omega, h.exclusive⟩

theorem Entry.Ok.of_banUntil {e : Entry} (h : e.banUntil = 0) : e.Ok config now := by
  constructor
  · rw [h]
    exact UInt32.zero_le
  · rw [h]
    exact Nat.zero_le _
  · exact fun _ ↦ h

theorem Table.Sound.mono {ok ok' fresh : Entry → Prop} {t : Table} (h : t.Sound ok fresh)
    (hok : ∀ e, ok e → ok' e) : t.Sound ok' fresh :=
  ⟨h.image, fun a e hfind ↦ hok e (h.entries a e hfind)⟩

namespace Consistent

theorem later {now' : Timestamp} (h : db.Consistent config now) (hle : now ≤ now') :
    db.Consistent config now' :=
  ⟨h.disjoint, h.white.mono fun _ he ↦ he.later hle, h.gray.mono fun _ he ↦ he.later hle,
    h.exclusive⟩

theorem listsSound (h : db.Consistent config now) : db.ListsSound config := by
  refine ⟨h.disjoint, h.white.image, fun a ↦ ?_⟩
  rcases h.gray.image a with himage | ⟨_, _, _, hfresh⟩
  · exact himage
  · exact hfresh.elim

theorem unban (h : db.Consistent config now) : (db.unban now).Consistent config now where
  disjoint a := (h.disjoint a).imp Table.find_unban_none Table.find_unban_none
  white := h.white.unban (fun _ _ ↦ Entry.Ok.of_banUntil rfl) now
  gray := h.gray.unban (fun _ _ ↦ Entry.Ok.of_banUntil rfl) now
  exclusive := h.exclusive

theorem trim (h : db.Consistent config now) : (db.trim config).Consistent config now where
  disjoint a := (h.disjoint a).imp (Table.find_trim _) (Table.find_trim _)
  white := h.white.trim _
  gray := h.gray.trim _
  exclusive := h.exclusive

/-- An entry may be written into the white list if its address is not in the gray list. -/
theorem writeWhite (h : db.Consistent config now) {e : Entry} (he : e.Ok config now)
    (hgray : db.gray.list.find e.adr = none) :
    PeerDB.Consistent config now { db with white := db.white.write e } where
  disjoint a := by
    dsimp only
    rw [Table.find_write]
    split
    · next ha => exact Or.inr (ha ▸ hgray)
    · exact h.disjoint a
  white := h.white.write he
  gray := h.gray
  exclusive := h.exclusive

theorem writeGray (h : db.Consistent config now) {e : Entry} (he : e.Ok config now)
    (hwhite : db.white.list.find e.adr = none) :
    PeerDB.Consistent config now { db with gray := db.gray.write e } where
  disjoint a := by
    dsimp only
    rw [Table.find_write]
    split
    · next ha => exact Or.inl (ha ▸ hwhite)
    · exact h.disjoint a
  white := h.white
  gray := h.gray.write he
  exclusive := h.exclusive

theorem gray_of_white (h : db.Consistent config now) {a : NetworkAddress} {e : Entry}
    (hwhite : db.white.list.find a = some e) : db.gray.list.find a = none := by
  refine (h.disjoint a).resolve_left fun hnone ↦ ?_
  rw [hwhite] at hnone
  cases hnone

theorem addIncomingPeerImpl (h : db.Consistent config now) (a : NetworkAddress)
    (id random : UInt64) : (db.addIncomingPeerImpl a id random).Consistent config now := by
  unfold PeerDB.addIncomingPeerImpl
  split
  · exact h
  · split
    · exact h
    · next hwhite =>
      split
      · exact h
      · exact h.writeGray (Entry.Ok.of_banUntil rfl) (not_not.1 hwhite)

theorem mergePeerlistFromP2p (h : db.Consistent config now)
    (outer : List (PeerlistEntry × UInt64)) :
    (db.mergePeerlistFromP2p config outer now).Consistent config now := by
  refine Consistent.trim ?_
  have hunbanned := h.unban
  generalize db.unban now = db at hunbanned
  induction outer generalizing db with
  | nil => exact hunbanned
  | cons p outer ih => exact ih _ (hunbanned.addIncomingPeerImpl p.1.adr p.1.id p.2)

theorem setPeerJustSeen (h : db.Consistent config now) (id : UInt64) (a : NetworkAddress)
    (random : UInt64) (reset : Bool) :
    (db.setPeerJustSeen config id a random now reset).Consistent config now := by
  unfold PeerDB.setPeerJustSeen
  dsimp only
  have hremoved : PeerDB.Consistent config now { db with
      gray := if db.gray.list.find a ≠ none then db.gray.delete a else db.gray } := by
    split
    · refine ⟨fun b ↦ ?_, h.white, h.gray.delete a, h.exclusive⟩
      dsimp only
      rw [Table.find_delete]
      split
      · exact Or.inr rfl
      · exact h.disjoint b
    · exact h
  refine hremoved.writeWhite (Entry.Ok.of_banUntil rfl) ?_
  have hadr : ((db.white.list.find a).getD { adr := a, shuffleRandom := random }).adr = a := by
    cases hfind : db.white.list.find a with
    | none => rfl
    | some e => exact PeersIndexed.adr_of_find hfind
  dsimp only
  rw [hadr]
  split
  · rw [Table.find_delete, if_pos rfl]
  · next hgray => exact not_not.1 hgray

/-! ## Times -/

theorem toNat_add (hclock : now.toNat + 600 < 2 ^ 32) {period : Timestamp}
    (hperiod : period.toNat ≤ 600) : (now + period).toNat = now.toNat + period.toNat := by
  rw [UInt32.toNat_add]
  exact Nat.mod_eq_of_lt (by omega)

theorem delayPeriod_le (config : Config) (a : NetworkAddress) :
    (delayPeriod config a).toNat ≤ 600 := by
  unfold delayPeriod
  split
  · exact le_refl _
  · decide

theorem delayConnectionAttempt (h : db.Consistent config now) (hclock : now.toNat + 600 < 2 ^ 32)
    (a : NetworkAddress) : (db.delayConnectionAttempt config a now).Consistent config now := by
  unfold PeerDB.delayConnectionAttempt
  split
  · exact h
  · next e hfind =>
    have he := h.white.entries a e hfind
    obtain rfl := PeersIndexed.adr_of_find hfind
    refine h.writeWhite ⟨?_, he.delay, he.exclusive⟩ (h.gray_of_white hfind)
    rw [UInt32.le_iff_toNat_le]
    have hdelay := he.delay
    rw [← toNat_add hclock (delayPeriod_le config e.adr)] at hdelay
    exact hdelay

theorem ban_ok {e : Entry} (error : String) {period : Timestamp}
    (hclock : now.toNat + 600 < 2 ^ 32)
    (hperiod : period.toNat ≤ (delayPeriod config e.adr).toNat)
    (hexclusive : e.adr ∉ config.exclusiveNodes) :
    (e.ban error (now + period)).Ok config now where
  attempt := UInt32.le_refl _
  delay := by
    change (now + period).toNat ≤ now.toNat + (delayPeriod config e.adr).toNat
    rw [toNat_add hclock (hperiod.trans (delayPeriod_le config e.adr))]
    exact Nat.add_le_add_left hperiod _
  exclusive h := absurd h hexclusive

theorem replaceExclusive (h : db.Consistent config now) {a : NetworkAddress} {e e' : Entry}
    (hfind : db.exclusivelist.find a = some e) (hadr : e'.adr = e.adr) :
    PeerDB.Consistent config now { db with exclusivelist := db.exclusivelist.replace e' } := by
  refine ⟨h.disjoint, h.white, h.gray, fun b ↦ ?_⟩
  dsimp only
  rw [PeersIndexed.find_replace, ← h.exclusive b]
  split
  · next hb =>
    have heq : a = b := (PeersIndexed.adr_of_find hfind).symm.trans (hadr.symm.trans hb)
    exact iff_of_true (Option.some_ne_none _) (by simp [← heq, hfind])
  · rfl

theorem setPeerBanned (h : db.Consistent config now) (hclock : now.toNat + 600 < 2 ^ 32)
    (a : NetworkAddress) (error : String) :
    (db.setPeerBanned config a error now).Consistent config now := by
  unfold PeerDB.setPeerBanned
  split
  · next e hfind => exact h.replaceExclusive hfind rfl
  · next hfind =>
    have hexclusive : a ∉ config.exclusiveNodes := fun hmem ↦ (h.exclusive a).2 hmem hfind
    have hperiod : (if isPriority config a = true then PRIORITY_RECONNECT_PERIOD
        else BAN_PERIOD).toNat ≤ (delayPeriod config a).toNat := by
      unfold delayPeriod
      cases isPriority config a
      · exact le_refl _
      · exact le_refl _
    have hwhitePeriod : (if isSeed config a = true then PRIORITY_RECONNECT_PERIOD
        else if isPriority config a = true then PRIORITY_RECONNECT_PERIOD
          else BAN_PERIOD).toNat ≤ (delayPeriod config a).toNat := by
      split
      · unfold delayPeriod
        split
        · decide
        · exact le_refl _
      · exact hperiod
    -- first the gray list, then the white one
    have hgray : PeerDB.Consistent config now { db with gray := db.gray.ban a error (now +
        if isPriority config a = true then PRIORITY_RECONNECT_PERIOD else BAN_PERIOD) } := by
      unfold Table.ban
      split
      · exact h
      · next e hfind =>
        obtain rfl := PeersIndexed.adr_of_find hfind
        refine h.writeGray (ban_ok error hclock hperiod hexclusive) ?_
        refine (h.disjoint e.adr).resolve_right fun hnone ↦ ?_
        rw [hfind] at hnone
        cases hnone
    unfold Table.ban at hgray ⊢
    cases hwhite : db.white.list.find a with
    | none => exact hgray
    | some e =>
      obtain rfl := PeersIndexed.adr_of_find hwhite
      refine hgray.writeWhite (ban_ok error hclock hwhitePeriod hexclusive) ?_
      exact hgray.gray_of_white hwhite

/-! ## The choice of a peer -/

theorem attempt_ok {e : Entry} (h : e.Ok config now) (hclock : now.toNat + 600 < 2 ^ 32)
    (hdue : e.nextConnectionAttempt ≤ now) {period : Timestamp} (hperiod : period.toNat ≤ 600) :
    Entry.Ok config now { e with nextConnectionAttempt := now + period } := by
  refine ⟨?_, h.delay, h.exclusive⟩
  have hattempt := UInt32.le_iff_toNat_le.1 h.attempt
  have hdue := UInt32.le_iff_toNat_le.1 hdue
  rw [UInt32.le_iff_toNat_le]
  change e.banUntil.toNat ≤ (now + period).toNat
  rw [toNat_add hclock hperiod]
  omega

theorem attemptPeriod_le (config : Config) (a : NetworkAddress) :
    (if isPriority config a = true then PRIORITY_RECONNECT_PERIOD
      else RECONNECT_PERIOD).toNat ≤ 600 := by
  split
  · decide
  · decide

/-- A chosen entry stands in its list and is not skipped. -/
theorem firstDue_cases {l : PeersIndexed} {skip : NetworkAddress → Bool} {e : Entry}
    (h : firstDue l now skip = some e) : l.find e.adr = some e ∧ skip e.adr = false := by
  unfold firstDue at h
  have hskip := List.find?_some h
  have hsorted := (List.takeWhile_sublist _).mem (List.mem_of_find?_eq_some h)
  refine ⟨PeersIndexed.find_of_mem (PeersIndexed.mem_sortedBy.1 hsorted), ?_⟩
  simpa using hskip

/-- What is chosen, and what it leaves. -/
structure Chosen (config : Config) (db db' : PeerDB) (connected : List NetworkAddress)
    (now : Timestamp) (a : NetworkAddress) : Prop where
  connected : a ∉ connected
  before : db.isPeerBanned a now = false
  after : db'.isPeerBanned a now = false

theorem isPeerBanned_eq_false {a : NetworkAddress}
    (hwhite : ∀ e, db.white.list.find a = some e → e.banUntil ≤ now)
    (hgray : ∀ e, db.gray.list.find a = some e → e.banUntil ≤ now) :
    db.isPeerBanned a now = false := by
  have hnot : ∀ o : Option Entry, (∀ e, o = some e → e.banUntil ≤ now) →
      o.any (fun e ↦ decide (now < e.banUntil)) = false := by
    intro o ho
    cases o with
    | none => rfl
    | some e => exact decide_eq_false (UInt32.not_lt.2 (ho e rfl))
  unfold isPeerBanned
  rw [hnot _ hgray, hnot _ hwhite]
  rfl

/-- Who is not banned after the bans that have ended were lifted was not banned before. -/
theorem not_banned_of_unban {t : Table} {a : NetworkAddress}
    (h : ∀ e, (t.unban now).list.find a = some e → e.banUntil ≤ now) :
    ∀ e, t.list.find a = some e → e.banUntil ≤ now := by
  intro e hfind
  have hkept : (t.unban now).list.find a ≠ none :=
    Table.find_unban_ne_none (by simp [hfind])
  obtain ⟨e', he'⟩ := Option.ne_none_iff_exists'.1 hkept
  obtain ⟨o, ho, hcases⟩ := Table.find_unban he'
  rw [hfind] at ho
  obtain rfl := Option.some.inj ho
  rcases hcases with rfl | hended
  · exact h _ he'
  · exact hended

/-- An exclusive node is never banned by the lists. -/
theorem not_banned_of_exclusive (h : db.Consistent config now) {a : NetworkAddress}
    (ha : a ∈ config.exclusiveNodes) : db.isPeerBanned a now = false := by
  refine isPeerBanned_eq_false (fun e hfind ↦ ?_) fun e hfind ↦ ?_
  · have he := (h.white.entries a e hfind).exclusive (PeersIndexed.adr_of_find hfind ▸ ha)
    rw [he]
    exact UInt32.zero_le
  · have he := (h.gray.entries a e hfind).exclusive (PeersIndexed.adr_of_find hfind ▸ ha)
    rw [he]
    exact UInt32.zero_le

theorem getPeerToConnect (h : db.Consistent config now) (hclock : now.toNat + 600 < 2 ^ 32)
    (connected : List NetworkAddress) (random : UInt32) :
    (db.getPeerToConnect config connected random now).2.Consistent config now ∧
    ∀ a, (db.getPeerToConnect config connected random now).1 = some a →
      Chosen config db (db.getPeerToConnect config connected random now).2 connected now a := by
  unfold PeerDB.getPeerToConnect
  split
  · split
    · exact ⟨h, fun a hnone ↦ by cases hnone⟩
    · next e hdue =>
      obtain ⟨hfind, hskip⟩ := firstDue_cases hdue
      have hexclusive : e.adr ∈ config.exclusiveNodes :=
        (h.exclusive e.adr).1 (by simp [hfind])
      let e' := { e with nextConnectionAttempt := now + PRIORITY_RECONNECT_PERIOD }
      have hadr : e'.adr = e.adr := rfl
      have hafter := h.replaceExclusive hfind hadr
      refine ⟨hafter, fun a ha ↦ ?_⟩
      obtain rfl := Option.some.inj ha
      exact ⟨of_decide_eq_false hskip, h.not_banned_of_exclusive hexclusive,
        hafter.not_banned_of_exclusive hexclusive⟩
  · have hunbanned := h.unban
    dsimp only
    split
    · next e hwhite =>
      obtain ⟨hdue, hcond⟩ := Option.filter_eq_some_iff.1 hwhite
      obtain ⟨hfind, hskip⟩ := firstDue_cases hdue
      have hnext := (of_decide_eq_true hcond).2
      have hok := hunbanned.white.entries _ _ hfind
      have hended := UInt32.le_trans hok.attempt hnext
      have hgray := hunbanned.gray_of_white hfind
      refine ⟨hunbanned.writeWhite
        (attempt_ok hok hclock hnext (attemptPeriod_le config e.adr)) hgray, fun a ha ↦ ?_⟩
      obtain rfl := Option.some.inj ha
      refine ⟨?_, ?_, ?_⟩
      · exact of_decide_eq_false (Bool.or_eq_false_iff.1 hskip).1
      · refine isPeerBanned_eq_false (not_banned_of_unban fun e' he' ↦ ?_)
          (not_banned_of_unban fun e' he' ↦ ?_)
        · change (db.unban now).white.list.find e.adr = some e' at he'
          rw [hfind] at he'
          exact Option.some.inj he' ▸ hended
        · change (db.unban now).gray.list.find e.adr = some e' at he'
          rw [hgray] at he'
          cases he'
      · refine isPeerBanned_eq_false (fun e' he' ↦ ?_) fun e' he' ↦ ?_
        · dsimp only [Table.attempt] at he'
          rw [Table.find_write, if_pos rfl] at he'
          exact Option.some.inj he' ▸ hended
        · dsimp only at he'
          rw [hgray] at he'
          cases he'
    · next e _ hgray =>
      obtain ⟨hdue, hcond⟩ := Option.filter_eq_some_iff.1 hgray
      obtain ⟨hfind, hskip⟩ := firstDue_cases hdue
      have hnext := of_decide_eq_true hcond
      have hok := hunbanned.gray.entries _ _ hfind
      have hended := UInt32.le_trans hok.attempt hnext
      have hwhite : (db.unban now).white.list.find e.adr = none := by
        refine (hunbanned.disjoint e.adr).resolve_right fun hnone ↦ ?_
        rw [hfind] at hnone
        cases hnone
      refine ⟨hunbanned.writeGray
        (attempt_ok hok hclock hnext (attemptPeriod_le config e.adr)) hwhite, fun a ha ↦ ?_⟩
      obtain rfl := Option.some.inj ha
      refine ⟨?_, ?_, ?_⟩
      · exact of_decide_eq_false (Bool.or_eq_false_iff.1 hskip).1
      · refine isPeerBanned_eq_false (not_banned_of_unban fun e' he' ↦ ?_)
          (not_banned_of_unban fun e' he' ↦ ?_)
        · change (db.unban now).white.list.find e.adr = some e' at he'
          rw [hwhite] at he'
          cases he'
        · change (db.unban now).gray.list.find e.adr = some e' at he'
          rw [hfind] at he'
          exact Option.some.inj he' ▸ hended
      · refine isPeerBanned_eq_false (fun e' he' ↦ ?_) fun e' he' ↦ ?_
        · dsimp only at he'
          rw [hwhite] at he'
          cases he'
        · dsimp only [Table.attempt] at he'
          rw [Table.find_write, if_pos rfl] at he'
          exact Option.some.inj he' ▸ hended
    · exact ⟨hunbanned, fun a hnone ↦ by cases hnone⟩

end Consistent

end Calls

/-! ## Construction -/

/-- A stored database that agrees with the configuration: every record can be read and stands under
its own address, no address is in both lists and no seed node in the gray one. -/
structure StoredWell (config : Config) (now : Timestamp) (white gray : Records) : Prop where
  keyed : ∀ r ∈ white.records ++ gray.records, ∃ e, r.2 = some e ∧ e.adr = r.1 ∧ e.Ok config now
  disjoint : ∀ r ∈ gray.records, r.1 ∉ white.records.map Prod.fst
  seeds : ∀ r ∈ gray.records, r.1 ∉ config.seedNodes

section Construction

variable {config : Config} {now : Timestamp} {random : NetworkAddress → UInt64}

theorem find_readDb (stored : Records) (a : NetworkAddress) :
    (readDb stored).list.find a =
      (stored.records.filterMap Prod.snd).find? fun e ↦ e.adr = a := by
  unfold readDb
  rw [PeersIndexed.find_foldl_insert]
  rfl

theorem sound_readDb {stored : Records}
    (hkeyed : ∀ r ∈ stored.records, ∃ e, r.2 = some e ∧ e.adr = r.1 ∧ e.Ok config now) :
    (readDb stored).Sound (Entry.Ok config now) fun _ ↦ False := by
  constructor
  · intro a
    left
    rw [find_readDb]
    change (stored.records.find? fun r ↦ r.1 = a).map Prod.snd = _
    generalize stored.records = records at hkeyed ⊢
    induction records with
    | nil => rfl
    | cons r records ih =>
      obtain ⟨e, he, hadr, _⟩ := hkeyed r List.mem_cons_self
      have hrest := ih fun r' hmem ↦ hkeyed r' (List.mem_cons_of_mem _ hmem)
      rw [List.filterMap_cons, he, List.find?_cons, List.find?_cons, hadr]
      by_cases ha : r.1 = a
      · simp [ha, he]
      · simpa [ha] using hrest
  · intro a e hfind
    rw [find_readDb] at hfind
    obtain ⟨r, hmem, he⟩ := List.mem_filterMap.1 (List.mem_of_find?_eq_some hfind)
    obtain ⟨e', he', _, hok⟩ := hkeyed r hmem
    rw [he] at he'
    exact Option.some.inj he' ▸ hok

/-- An address that is found is stored. -/
theorem mem_of_find_readDb {stored : Records}
    (hkeyed : ∀ r ∈ stored.records, ∃ e, r.2 = some e ∧ e.adr = r.1 ∧ e.Ok config now)
    {a : NetworkAddress} (h : (readDb stored).list.find a ≠ none) :
    a ∈ stored.records.map Prod.fst := by
  obtain ⟨e, hfind⟩ := Option.ne_none_iff_exists'.1 h
  have hadr := PeersIndexed.adr_of_find hfind
  rw [find_readDb] at hfind
  obtain ⟨r, hmem, he⟩ := List.mem_filterMap.1 (List.mem_of_find?_eq_some hfind)
  obtain ⟨e', he', hkey, _⟩ := hkeyed r hmem
  rw [he] at he'
  obtain rfl := Option.some.inj he'
  exact List.mem_map.2 ⟨r, hmem, hkey.symm.trans hadr⟩

theorem find_fresh (nodes : List NetworkAddress) (a : NetworkAddress) :
    (nodes.map (freshEntry random)).find? (fun e ↦ e.adr = a) =
      if a ∈ nodes then some (freshEntry random a) else none := by
  induction nodes with
  | nil => rfl
  | cons node nodes ih =>
    rw [List.map_cons, List.find?_cons, ih]
    by_cases ha : node = a
    · simp [freshEntry, ha]
    · simp [freshEntry, ha, Ne.symm ha]

theorem consistent_construct {white gray : Records} (h : StoredWell config now white gray) :
    (construct config random white gray).Consistent config now := by
  have hwhiteKeyed : ∀ r ∈ white.records, ∃ e, r.2 = some e ∧ e.adr = r.1 ∧ e.Ok config now :=
    fun r hmem ↦ h.keyed r (List.mem_append_left _ hmem)
  have hgrayKeyed : ∀ r ∈ gray.records, ∃ e, r.2 = some e ∧ e.adr = r.1 ∧ e.Ok config now :=
    fun r hmem ↦ h.keyed r (List.mem_append_right _ hmem)
  have hfind : ∀ a, (construct config random white gray).white.list.find a =
      ((readDb white).list.find a).or
        (if a ∈ config.seedNodes then some (freshEntry random a) else none) := by
    intro a
    change PeersIndexed.find (List.foldl _ _ _) a = _
    rw [PeersIndexed.find_foldl_insert, find_fresh]
  have hwhite := sound_readDb hwhiteKeyed
  refine ⟨fun a ↦ ?_, ⟨fun a ↦ ?_, fun a e he ↦ ?_⟩, sound_readDb hgrayKeyed, fun a ↦ ?_⟩
  · by_cases hgray : (readDb gray).list.find a = none
    · exact Or.inr hgray
    · obtain ⟨r, hmem, rfl⟩ := List.mem_map.1 (mem_of_find_readDb hgrayKeyed hgray)
      left
      rw [hfind, if_neg (h.seeds r hmem), Option.or_none]
      by_contra hstored
      exact h.disjoint r hmem (mem_of_find_readDb hwhiteKeyed hstored)
  · rw [hfind]
    change (readDb white).image a = _ ∨ (readDb white).image a = none ∧ _
    rcases hwhite.image a with himage | ⟨_, _, _, hfalse⟩
    · rw [himage]
      cases hstored : (readDb white).list.find a with
      | some e => exact Or.inl rfl
      | none =>
        by_cases hseed : a ∈ config.seedNodes
        · rw [if_pos hseed]
          exact Or.inr ⟨rfl, freshEntry random a, rfl, hseed, rfl⟩
        · rw [if_neg hseed]
          exact Or.inl rfl
    · exact hfalse.elim
  · rw [hfind] at he
    rcases Option.or_eq_some_iff.1 he with hstored | ⟨_, hfresh⟩
    · exact hwhite.entries a e hstored
    · split at hfresh
      · exact Option.some.inj hfresh ▸ Entry.Ok.of_banUntil rfl
      · cases hfresh
  · change PeersIndexed.find (List.foldl _ _ _) a ≠ none ↔ _
    rw [PeersIndexed.find_foldl_insert, find_fresh]
    change (none : Option Entry).or _ ≠ none ↔ _
    rw [Option.none_or]
    split
    · next hmem => exact iff_of_true (Option.some_ne_none _) hmem
    · next hmem => exact iff_of_false (fun hnot ↦ hnot rfl) hmem

end Construction

/-! ## Runs -/

/-- Calls at times that do not go back, from a time on. -/
def Timely (start : Timestamp) (calls : List (Timestamp × Call)) : Prop :=
  (∀ call ∈ calls, start ≤ call.1) ∧ calls.Pairwise fun a b ↦ a.1 ≤ b.1

/-- The lists are sound after every call, and no peer that is connected or banned is chosen. -/
structure SoundRun (config : Config) (db : PeerDB) (calls : List (Timestamp × Call)) : Prop where
  lists : ∀ before after, calls = before ++ after → (db.run config before).ListsSound config
  chosen : ∀ before now connected random after a,
    calls = before ++ (now, .getPeerToConnect connected random) :: after →
    ((db.run config before).getPeerToConnect config connected random now).1 = some a →
      a ∉ connected ∧ (db.run config before).isPeerBanned a now = false ∧
        (db.run config (before ++ [(now, .getPeerToConnect connected random)])).isPeerBanned a
          now = false

section Runs

variable {config : Config} {now : Timestamp} {db : PeerDB}

theorem Consistent.step (h : db.Consistent config now) {call : Timestamp × Call}
    (hle : now ≤ call.1) (hclock : call.1.toNat + 600 < 2 ^ 32) :
    (db.step config call).Consistent config call.1 := by
  obtain ⟨now', call⟩ := call
  have hlater := h.later hle
  cases call with
  | mergePeerlistFromP2p outer => exact hlater.mergePeerlistFromP2p outer
  | addIncomingPeer a id random => exact (hlater.unban.addIncomingPeerImpl a id random).trim
  | setPeerJustSeen id a random reset => exact hlater.setPeerJustSeen id a random reset
  | setPeerBanned a error => exact hlater.setPeerBanned hclock a error
  | delayConnectionAttempt a => exact hlater.delayConnectionAttempt hclock a
  | unban => exact hlater.unban
  | getPeerToConnect connected random =>
    exact (hlater.getPeerToConnect hclock connected random).1

theorem Consistent.run (h : db.Consistent config now) {calls : List (Timestamp × Call)}
    (htimely : Timely now calls) (hclock : ∀ call ∈ calls, call.1.toNat + 600 < 2 ^ 32) :
    ∃ last, (db.run config calls).Consistent config last ∧
      ∀ time, (∀ call ∈ calls, call.1 ≤ time) → now ≤ time → last ≤ time := by
  induction calls generalizing db now with
  | nil => exact ⟨now, h, fun _ _ hle ↦ hle⟩
  | cons call calls ih =>
    obtain ⟨hstart, hsorted⟩ := htimely
    obtain ⟨hfirst, hsorted⟩ := List.pairwise_cons.1 hsorted
    have hstep := h.step (hstart call List.mem_cons_self) (hclock call List.mem_cons_self)
    obtain ⟨last, hlast, hbound⟩ := ih hstep ⟨hfirst, hsorted⟩
      fun call' hmem ↦ hclock call' (List.mem_cons_of_mem _ hmem)
    refine ⟨last, hlast, fun time htimes _ ↦ ?_⟩
    exact hbound time (fun call' hmem ↦ htimes call' (List.mem_cons_of_mem _ hmem))
      (htimes call List.mem_cons_self)

/-- From a stored database that agrees with the configuration, and as long as the clock is positive
and more than 600 seconds below 2^32. -/
theorem soundRun (config : Config) (random : NetworkAddress → UInt64) (start : Timestamp)
    (white gray : Records) (calls : List (Timestamp × Call)) (htimely : Timely start calls)
    (hstored : StoredWell config start white gray)
    (hclock : ∀ call ∈ calls, 0 < call.1.toNat ∧ call.1.toNat + 600 < 2 ^ 32) :
    SoundRun config (construct config random white gray) calls := by
  have hconstruct := @consistent_construct config start random _ _ hstored
  have hbefore : ∀ before after, calls = before ++ after → ∃ last,
      ((construct config random white gray).run config before).Consistent config last ∧
        ∀ time, (∀ call ∈ before, call.1 ≤ time) → start ≤ time → last ≤ time := by
    rintro before after rfl
    obtain ⟨hstart, hsorted⟩ := htimely
    exact hconstruct.run
      ⟨fun call hmem ↦ hstart call (List.mem_append_left _ hmem),
      (List.pairwise_append.1 hsorted).1⟩
      fun call hmem ↦ (hclock call (List.mem_append_left _ hmem)).2
  constructor
  · intro before after hcalls
    obtain ⟨last, hlast, _⟩ := hbefore before after hcalls
    exact hlast.listsSound
  · intro before now connected random' after a hcalls hchosen
    obtain ⟨last, hlast, hbound⟩ := hbefore before _ hcalls
    subst hcalls
    have hmem : (now, Call.getPeerToConnect connected random') ∈
        before ++ (now, .getPeerToConnect connected random') :: after :=
      List.mem_append_right _ List.mem_cons_self
    have hsorted := (List.pairwise_append.1 htimely.2).2.2
    have hlater := hlast.later (hbound now
      (fun call hcall ↦ hsorted call hcall _ List.mem_cons_self) (htimely.1 _ hmem))
    have hresult := (hlater.getPeerToConnect (hclock _ hmem).2 connected random').2 a hchosen
    refine ⟨hresult.connected, hresult.before, ?_⟩
    rw [PeerDB.run, List.foldl_append]
    exact hresult.after

end Runs

/-- A peer that is banned and later chosen. -/
def sampleCalls : List (Timestamp × Call) :=
  [(1000, .setPeerBanned ⟨1, 80⟩ "banned"), (1001, .getPeerToConnect [] 0),
    (1700, .getPeerToConnect [] 0)]

theorem soundRun_sampleCalls : SoundRun { seedNodes := [⟨2, 80⟩] }
    (construct { seedNodes := [⟨2, 80⟩] } (fun _ ↦ 5)
      { records := [(⟨1, 80⟩, some { adr := ⟨1, 80⟩, id := 3, lastSeen := 900 })] } {})
    sampleCalls := by
  refine soundRun _ _ 1000 _ _ _ ⟨by decide, by decide⟩ ⟨?_, ?_, ?_⟩ (by decide)
  · intro r hmem
    obtain rfl := List.mem_singleton.1 hmem
    exact ⟨_, rfl, rfl, Entry.Ok.of_banUntil rfl⟩
  · intro r hmem
    cases hmem
  · intro r hmem
    cases hmem

/-- A seed node that is stored in the gray list is put into the white list as well. -/
theorem not_soundRun : ¬∀ (config : Config) (random : NetworkAddress → UInt64) (start : Timestamp)
    (white gray : Records) (calls : List (Timestamp × Call)), Timely start calls →
      SoundRun config (construct config random white gray) calls := by
  intro h
  have hlists := (h { seedNodes := [⟨1, 80⟩] } (fun _ ↦ 5) 1000 {}
    { records := [(⟨1, 80⟩, some { adr := ⟨1, 80⟩ })] } [] ⟨by decide, by decide⟩).lists [] [] rfl
  have hdisjoint := hlists.disjoint ⟨1, 80⟩
  revert hdisjoint
  decide

end PeerDB

end Naza
