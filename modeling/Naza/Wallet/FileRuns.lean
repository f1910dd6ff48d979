import Naza.Wallet.File

/-!
# The wallet file holds the wallet

What the operations of the wallet keep: the oldest timestamp is that of the oldest record, and the
file, read with the key of the wallet, gives the wallet back.  The cipher is assumed to undo itself,
as a stream that is added does.
-/

open Lib

namespace Naza

/-! ## Timestamps -/

theorem toNat_min (s t : Timestamp) : (min s t).toNat = min s.toNat t.toNat := by
  change (if s ≤ t then s else t).toNat = _
  split
  · next h => rw [Nat.min_eq_left (UInt32.le_iff_toNat_le.1 h)]
  · next h =>
    rw [UInt32.le_iff_toNat_le] at h
    rw [Nat.min_eq_right (by omega)]

theorem le_min_iff_toNat {s t u : Timestamp} : u ≤ min s t ↔ u ≤ s ∧ u ≤ t := by
  simp only [UInt32.le_iff_toNat_le, toNat_min, le_min_iff]

theorem min_cases_toNat (s t : Timestamp) : min s t = s ∧ s ≤ t ∨ min s t = t ∧ t ≤ s := by
  simp only [← UInt32.toNat_inj, toNat_min, UInt32.le_iff_toNat_le]
  omega

/-! ## Keys -/

variable {K : WalletFileCrypto}

/-- The cipher is an involution: it adds a key stream. -/
def WalletFileCrypto.Streams (K : WalletFileCrypto) : Prop :=
  ∀ key iv data, K.chacha8 key iv (K.chacha8 key iv data) = data

theorem decryptKeyPair_encryptKeyPair (hK : K.Streams) (iv : ChachaIv) (pk : PublicKey)
    (sk : SecretKey) (ct : Timestamp) (key : WalletKey) :
    decryptKeyPair K (encryptKeyPair K iv pk sk ct key) key =
      { spendPublicKey := pk, spendSecretKey := sk, creationTimestamp := ct } := by
  have hpk := Seria.length_podBytes pk
  have hsk := Seria.length_podBytes sk
  have hct : (natToBytes 8 ct.toNat).length = 8 := length_natToBytes _ _
  have hlt : ct.toNat < 256 ^ 8 := lt_of_lt_of_le ct.toNat_lt (by norm_num)
  have hplain := hK key iv (Seria.podBytes pk ++ (Seria.podBytes sk ++ natToBytes 8 ct.toNat))
  simp only [decryptKeyPair, encryptKeyPair, hplain]
  rw [List.take_left' hpk, List.drop_left' hpk, List.take_left' hsk,
    show 64 = 32 + 32 from rfl, ← List.drop_drop, List.drop_left' hpk, List.drop_left' hsk,
    List.take_of_length_le (by rw [hct]), bytesToNat_natToBytes, Nat.mod_eq_of_lt hlt,
    UInt32.ofNat_toNat, Seria.podOfBytes_podBytes, Seria.podOfBytes_podBytes]

@[simp]
theorem decryptKeyPair_encryptRecord (hK : K.Streams) (iv : ChachaIv) (r : WalletRecord)
    (key : WalletKey) : decryptKeyPair K (encryptRecord K iv r key) key = r :=
  decryptKeyPair_encryptKeyPair hK iv _ _ _ key

/-- A record whose secret key is there and gives its public key. -/
def WalletRecord.Matching (K : WalletFileCrypto) (r : WalletRecord) : Prop :=
  r.spendSecretKey ≠ 0 ∧ K.secretKeyToPublicKey r.spendSecretKey = some r.spendPublicKey

namespace Wallet

/-- The creation timestamps of the records. -/
def creationTimestamps (w : Wallet) : Set Timestamp :=
  {t | ∃ pk r, w.records.get pk = some r ∧ r.creationTimestamp = t}

/-- The keys of a wallet that can spend: the records are filed under their own keys, the first
among them. -/
structure Keyed (K : WalletFileCrypto) (w : Wallet) : Prop where
  first : w.records.get w.firstRecord.spendPublicKey = some w.firstRecord
  filed : ∀ pk r, w.records.get pk = some r → r.spendPublicKey = pk ∧ r.Matching K
  view : K.keysMatch w.viewSecretKey w.viewPublicKey = true
  walletKey : w.walletKey = K.generateChacha8Key w.password

/-- The records of a wallet, as a list. -/
def recordList (w : Wallet) : List WalletRecord := w.records.toList.map Prod.snd

theorem mem_recordList {w : Wallet} {r : WalletRecord} :
    r ∈ w.recordList ↔ ∃ pk, w.records.get pk = some r := by
  simp only [recordList, List.mem_map, Prod.exists, Store.mem_toList_iff, exists_eq_right]

theorem length_recordList (w : Wallet) : w.recordList.length = w.records.toList.length := by
  rw [recordList, List.length_map]

namespace Keyed

variable {w : Wallet}

theorem get_of_mem (h : w.Keyed K) {r : WalletRecord} (hr : r ∈ w.recordList) :
    w.records.get r.spendPublicKey = some r := by
  obtain ⟨pk, hpk⟩ := mem_recordList.1 hr
  rw [(h.filed pk r hpk).1, hpk]

theorem matching_of_mem (h : w.Keyed K) {r : WalletRecord} (hr : r ∈ w.recordList) :
    r.Matching K := by
  obtain ⟨pk, hpk⟩ := mem_recordList.1 hr
  exact (h.filed pk r hpk).2

theorem mem_of_get (_ : w.Keyed K) {pk : PublicKey} {r : WalletRecord}
    (hr : w.records.get pk = some r) : r ∈ w.recordList :=
  mem_recordList.2 ⟨pk, hr⟩

theorem isViewOnly (h : w.Keyed K) : w.isViewOnly = false := by
  rw [Wallet.isViewOnly, decide_eq_false_iff_not]
  exact (h.filed _ _ h.first).2.1

end Keyed

/-! ## Loading -/

/-- What loading one record after the first changes. -/
def takeLoaded (w : Wallet) (r : WalletRecord) : Wallet :=
  insertRecord r { w with oldestTimestamp := min w.oldestTimestamp r.creationTimestamp }

section takeLoaded

variable (w : Wallet) (r : WalletRecord) (rs : List WalletRecord)

theorem takeLoaded_eq : w.takeLoaded r = { w with
    oldestTimestamp := min w.oldestTimestamp r.creationTimestamp
    records := match w.records.get r.spendPublicKey with
      | some _ => w.records
      | none => w.records.put r.spendPublicKey r } := by
  rw [takeLoaded, insertRecord]
  cases h : w.records.get r.spendPublicKey with
  | none => rfl
  | some _ => rfl

/-- Loading changes the records and the oldest timestamp. -/
theorem foldl_takeLoaded_eq : ∃ records oldestTimestamp,
    rs.foldl takeLoaded w = { w with records, oldestTimestamp } := by
  induction rs generalizing w with
  | nil => exact ⟨_, _, rfl⟩
  | cons r rs ih =>
    obtain ⟨records, oldestTimestamp, heq⟩ := ih (w.takeLoaded r)
    refine ⟨records, oldestTimestamp, ?_⟩
    rw [List.foldl_cons, heq, takeLoaded_eq]

/-- Records of a wallet are loaded over some of its records: all of them are there. -/
theorem get_foldl_takeLoaded (w : Wallet) (rs : List WalletRecord)
    {target : Store PublicKey WalletRecord}
    (hsub : ∀ pk r, w.records.get pk = some r → target.get pk = some r)
    (hrs : ∀ r ∈ rs, target.get r.spendPublicKey = some r)
    (hall : ∀ pk r, target.get pk = some r → w.records.get pk = some r ∨ r ∈ rs ∧
      r.spendPublicKey = pk) :
    (rs.foldl takeLoaded w).records = target := by
  induction rs generalizing w with
  | nil =>
    refine Store.ext fun pk ↦ ?_
    cases hpk : target.get pk with
    | none =>
      cases hw : w.records.get pk with
      | none => exact hw
      | some r => rw [hsub pk r hw] at hpk; cases hpk
    | some r => exact (hall pk r hpk).resolve_right (by simp)
  | cons r rs ih =>
    have hr := hrs r List.mem_cons_self
    have hget : ∀ pk, (w.takeLoaded r).records.get pk =
        if r.spendPublicKey = pk then some r else w.records.get pk := by
      intro pk
      rw [takeLoaded_eq]
      cases hw : w.records.get r.spendPublicKey with
      | none => exact Store.get_put _ _ _ _
      | some old =>
        have : old = r := Option.some.inj ((hsub _ _ hw).symm.trans hr)
        by_cases heq : r.spendPublicKey = pk
        · simp only [if_pos heq]
          rw [← heq, hw, this]
        · simp only [if_neg heq]
    refine ih _ (fun pk s hs ↦ ?_) (fun s hs ↦ hrs s (List.mem_cons_of_mem _ hs)) fun pk s hs ↦ ?_
    · rw [hget] at hs
      split at hs
      · next heq =>
        cases hs
        rw [← heq, hr]
      · exact hsub pk s hs
    · rw [hget]
      split
      · next heq =>
        rw [← heq, hr] at hs
        exact Or.inl hs
      · next hne =>
        rcases hall pk s hs with hold | ⟨hmem, hpk⟩
        · exact Or.inl hold
        · rcases List.mem_cons.1 hmem with rfl | hmem
          · exact absurd hpk hne
          · exact Or.inr ⟨hmem, hpk⟩

/-- The oldest timestamp of what is loaded. -/
theorem oldestTimestamp_foldl_takeLoaded (w : Wallet) (rs : List WalletRecord) {t : Timestamp}
    (hle : t ≤ w.oldestTimestamp) (hrs : ∀ r ∈ rs, t ≤ r.creationTimestamp)
    (hmem : w.oldestTimestamp = t ∨ ∃ r ∈ rs, r.creationTimestamp = t) :
    (rs.foldl takeLoaded w).oldestTimestamp = t := by
  induction rs generalizing w with
  | nil => simpa using hmem
  | cons r rs ih =>
    have hr := hrs r List.mem_cons_self
    have hold : (w.takeLoaded r).oldestTimestamp =
        min w.oldestTimestamp r.creationTimestamp := by rw [takeLoaded_eq]
    refine ih _ (by rw [hold, le_min_iff_toNat]; exact ⟨hle, hr⟩)
      (fun s hs ↦ hrs s (List.mem_cons_of_mem _ hs)) ?_
    rw [hold]
    rcases hmem with rfl | ⟨s, hs, rfl⟩
    · left
      rw [← UInt32.toNat_inj, toNat_min]
      exact Nat.min_eq_left (UInt32.le_iff_toNat_le.1 hr)
    · rcases List.mem_cons.1 hs with rfl | hs
      · left
        rw [← UInt32.toNat_inj, toNat_min]
        exact Nat.min_eq_right (UInt32.le_iff_toNat_le.1 hle)
      · exact Or.inr ⟨s, hs, rfl⟩

end takeLoaded

/-- A record with matching keys is loaded into a wallet that can spend. -/
theorem loadRecord_eq (itemCount i : ℕ) {w : Wallet} {e : EncryptedWalletRecord}
    (he : (decryptKeyPair K e w.walletKey).Matching K)
    (hw : i ≠ 0 → w.firstRecord.spendSecretKey ≠ 0) :
    loadRecord K itemCount w i e =
      .ok (({ w with firstRecord :=
        if i = 0 then decryptKeyPair K e w.walletKey else w.firstRecord } : Wallet).takeLoaded
          (decryptKeyPair K e w.walletKey)) := by
  obtain ⟨hsk, hpk⟩ := he
  have hkeys : K.keysMatch (decryptKeyPair K e w.walletKey).spendSecretKey
      (decryptKeyPair K e w.walletKey).spendPublicKey = true := by
    simp [WalletFileCrypto.keysMatch, hpk]
  by_cases hi : i = 0
  · simp [loadRecord, hi, Wallet.isViewOnly, hsk, hkeys, takeLoaded, pure, Except.pure]
  · simp [loadRecord, hi, Wallet.isViewOnly, hsk, hkeys, takeLoaded, hw hi, pure, Except.pure]

/-- The records behind the first one. -/
theorem foldlM_loadRecord (itemCount : ℕ) {l : List EncryptedWalletRecord} :
    ∀ {i : ℕ} {w : Wallet}, i ≠ 0 → w.firstRecord.spendSecretKey ≠ 0 →
      (∀ e ∈ l, (decryptKeyPair K e w.walletKey).Matching K) →
      (l.zipIdx i).foldlM (fun w (e, i) ↦ loadRecord K itemCount w i e) w =
        .ok ((l.map (decryptKeyPair K · w.walletKey)).foldl takeLoaded w) := by
  induction l with
  | nil => intros; rfl
  | cons e l ih =>
    intro i w hi hw hl
    have hkey : (w.takeLoaded (decryptKeyPair K e w.walletKey)).walletKey = w.walletKey := by
      rw [takeLoaded_eq]
    have hfirst : (w.takeLoaded (decryptKeyPair K e w.walletKey)).firstRecord =
        w.firstRecord := by rw [takeLoaded_eq]
    have hstep := loadRecord_eq itemCount i (hl e List.mem_cons_self)
      fun _ ↦ hw
    rw [if_neg hi] at hstep
    have hrest := ih (i := i + 1) (w := w.takeLoaded (decryptKeyPair K e w.walletKey))
      (Nat.succ_ne_zero i) (by rw [hfirst]; exact hw) fun f hf ↦ by
        rw [hkey]
        exact hl f (List.mem_cons_of_mem _ hf)
    rw [hkey] at hrest
    rw [List.zipIdx_cons, List.foldlM_cons, List.map_cons, List.foldl_cons, ← hrest]
    show (loadRecord K itemCount w i e >>= _) = _
    rw [hstep]
    rfl

/-- All records, the first one first. -/
theorem foldlM_loadRecord_zero (itemCount : ℕ) {e : EncryptedWalletRecord}
    {l : List EncryptedWalletRecord} {w : Wallet}
    (hl : ∀ f ∈ e :: l, (decryptKeyPair K f w.walletKey).Matching K) :
    ((e :: l).zipIdx.foldlM (fun w (e, i) ↦ loadRecord K itemCount w i e) w) =
      .ok (((e :: l).map (decryptKeyPair K · w.walletKey)).foldl takeLoaded
        { w with firstRecord := decryptKeyPair K e w.walletKey }) := by
  have he := hl e List.mem_cons_self
  have hkey : (({ w with firstRecord := decryptKeyPair K e w.walletKey } : Wallet).takeLoaded
      (decryptKeyPair K e w.walletKey)).walletKey = w.walletKey := by
    rw [takeLoaded_eq]
  have hfirst : (({ w with firstRecord := decryptKeyPair K e w.walletKey } : Wallet).takeLoaded
      (decryptKeyPair K e w.walletKey)).firstRecord = decryptKeyPair K e w.walletKey := by
    rw [takeLoaded_eq]
  have hstep := loadRecord_eq itemCount 0 he fun h ↦ absurd rfl h
  rw [if_pos rfl] at hstep
  have hrest := foldlM_loadRecord itemCount (l := l)
    (w := ({ w with firstRecord := decryptKeyPair K e w.walletKey } : Wallet).takeLoaded
      (decryptKeyPair K e w.walletKey)) (Nat.succ_ne_zero 0) (by rw [hfirst]; exact he.1)
    fun f hf ↦ by
      rw [hkey]
      exact hl f (List.mem_cons_of_mem _ hf)
  rw [hkey] at hrest
  rw [List.zipIdx_cons, List.foldlM_cons, List.map_cons, List.foldl_cons, ← hrest]
  show (loadRecord K itemCount w 0 e >>= _) = _
  rw [hstep]
  rfl

/-! ## The file of a wallet -/

/-- A file whose records are those of a wallet, the first one first. -/
structure Stores (K : WalletFileCrypto) (w : Wallet) (file : WalletFile) : Prop where
  version : file.version = serializationVersionV2
  view : (decryptKeyPair K file.encryptedViewKeys w.walletKey).spendPublicKey = w.viewPublicKey ∧
    (decryptKeyPair K file.encryptedViewKeys w.walletKey).spendSecretKey = w.viewSecretKey
  records : ∃ others,
    ((file.records.take w.recordList.length).map (decryptKeyPair K · w.walletKey)) =
      w.firstRecord :: others ∧ (w.firstRecord :: others).Perm w.recordList

/-- The file counts the records. -/
def Counts (w : Wallet) (file : WalletFile) : Prop :=
  file.itemCapacity = w.recordList.length ∧ file.itemCount = w.recordList.length

namespace Stores

variable {w : Wallet} {file : WalletFile}

theorem le_length (h : w.Stores K file) : w.recordList.length ≤ file.records.length := by
  obtain ⟨others, heq, hperm⟩ := h.records
  have hlen := congrArg List.length heq
  rw [hperm.length_eq, List.length_map, List.length_take] at hlen
  omega

end Stores

/-- The file of a wallet, opened with its key into a wallet that is empty or has its records,
gives the wallet. -/
theorem openFile_eq {w : Wallet} (w₀ : Wallet) {file : WalletFile} (hw : w.Keyed K)
    (hold : IsLeast w.creationTimestamps w.oldestTimestamp) (hfile : w.Stores K file)
    (hcount : w.Counts file) (hkey : w₀.walletKey = w.walletKey)
    (hsub : ∀ pk r, w₀.records.get pk = some r → w.records.get pk = some r)
    (hle : w.oldestTimestamp ≤ w₀.oldestTimestamp) :
    openFile K file w₀ = .ok { w with password := w₀.password, file := some file } := by
  obtain ⟨others, hrecords, hperm⟩ := hfile.records
  have hmin : min file.itemCount file.itemCapacity = w.recordList.length := by
    rw [hcount.1, hcount.2, Nat.min_self]
  obtain ⟨e, l, hel⟩ : ∃ e l, file.records.take w.recordList.length = e :: l := by
    cases hcase : file.records.take w.recordList.length with
    | nil => rw [hcase] at hrecords; cases hrecords
    | cons e l => exact ⟨e, l, rfl⟩
  rw [hel, List.map_cons] at hrecords
  obtain ⟨hfirst, hothers⟩ := List.cons.inj hrecords
  have hmem : ∀ r ∈ (e :: l).map (decryptKeyPair K · w.walletKey), r ∈ w.recordList := by
    rw [List.map_cons, hfirst, hothers]
    exact fun r hr ↦ hperm.mem_iff.1 hr
  have hall : ∀ r ∈ w.recordList, r ∈ (e :: l).map (decryptKeyPair K · w.walletKey) := by
    rw [List.map_cons, hfirst, hothers]
    exact fun r hr ↦ hperm.mem_iff.2 hr
  let w₁ : Wallet := { w₀ with
    walletKey := w.walletKey
    viewPublicKey := w.viewPublicKey
    viewSecretKey := w.viewSecretKey }
  have hload : w₀.loadContainerStorage K file = .ok
      (((e :: l).map (decryptKeyPair K · w.walletKey)).foldl takeLoaded
        { w₁ with firstRecord := w.firstRecord }) := by
    have hfold := foldlM_loadRecord_zero w.recordList.length (w := w₁)
      (e := e) (l := l) (K := K) fun f hf ↦ hw.matching_of_mem (hmem _ (List.mem_map_of_mem hf))
    rw [loadContainerStorage, hfile.version, if_neg (by decide)]
    simp only [hkey, hfile.view.1, hfile.view.2, hw.view, hmin, hel]
    rw [if_neg (by simp), if_neg (not_lt_of_ge hfile.le_length), ← hfirst]
    exact hfold
  obtain ⟨records, oldest, heq⟩ := foldl_takeLoaded_eq
    { w₁ with firstRecord := w.firstRecord } ((e :: l).map (decryptKeyPair K · w.walletKey))
  have hrec : records = w.records := by
    have := get_foldl_takeLoaded { w₁ with firstRecord := w.firstRecord }
      ((e :: l).map (decryptKeyPair K · w.walletKey)) hsub
      (fun r hr ↦ hw.get_of_mem (hmem r hr))
      (fun pk r hr ↦ Or.inr ⟨hall r (hw.mem_of_get hr), (hw.filed pk r hr).1⟩)
    rw [heq] at this
    exact this
  have holdest : oldest = w.oldestTimestamp := by
    obtain ⟨⟨pk, r, hr, hrt⟩, hlower⟩ := hold
    have := oldestTimestamp_foldl_takeLoaded { w₁ with firstRecord := w.firstRecord }
      ((e :: l).map (decryptKeyPair K · w.walletKey)) (t := w.oldestTimestamp) hle
      (fun s hs ↦ hlower ⟨_, s, hw.get_of_mem (hmem s hs), rfl⟩)
      (Or.inr ⟨r, hall r (hw.mem_of_get hr), hrt⟩)
    rw [heq] at this
    exact this
  have hne : w.records.toList ≠ [] := by
    intro hnil
    have := hperm.length_eq
    rw [length_recordList, hnil] at this
    simp at this
  rw [openFile, hfile.version, if_neg (by decide), hload, heq, hrec, holdest]
  show (if w.records.toList = [] then _ else _) = _
  rw [if_neg hne]
  rfl

/-! ## Saving -/

theorem Keyed.nodup_recordList {w : Wallet} (h : w.Keyed K) : w.recordList.Nodup := by
  refine List.Nodup.of_map WalletRecord.spendPublicKey ?_
  have hkeys : w.recordList.map WalletRecord.spendPublicKey = w.records.toList.map Prod.fst := by
    rw [recordList, List.map_map]
    refine List.map_congr_left fun e he ↦ ?_
    exact (h.filed e.1 e.2 (Store.mem_toList_iff.1 he)).1
  rw [hkeys]
  exact Store.nodup_keys_toList _

/-- The records as they are written: the first one, then those with other keys. -/
theorem Keyed.perm_recordList {w : Wallet} (h : w.Keyed K) :
    (w.firstRecord :: (w.recordList.filter fun r ↦
      r.spendPublicKey ≠ w.firstRecord.spendPublicKey)).Perm w.recordList := by
  have hfirst : w.firstRecord ∈ w.recordList := h.mem_of_get h.first
  have hfilter : (w.recordList.filter fun r ↦
      r.spendPublicKey ≠ w.firstRecord.spendPublicKey) = w.recordList.erase w.firstRecord := by
    rw [h.nodup_recordList.erase_eq_filter]
    refine List.filter_congr fun r hr ↦ ?_
    have hiff : r.spendPublicKey = w.firstRecord.spendPublicKey ↔ r = w.firstRecord := by
      refine ⟨fun heq ↦ ?_, fun heq ↦ by rw [heq]⟩
      have := h.get_of_mem hr
      rw [heq, h.first] at this
      exact (Option.some.inj this).symm
    simp [hiff, bne, BEq.beq]
  rw [hfilter]
  exact (List.perm_cons_erase hfirst).symm

/-- Records written one after the other are read again. -/
theorem map_decryptKeyPair_mapIdx (hK : K.Streams) (ivs : ℕ → ChachaIv) (rs : List WalletRecord)
    (key : WalletKey) :
    (rs.mapIdx fun i r ↦ encryptRecord K (ivs i) r key).map (decryptKeyPair K · key) = rs := by
  refine List.ext_getElem (by simp) fun i hi hi' ↦ ?_
  simp [decryptKeyPair_encryptRecord hK]

theorem save_stores {w : Wallet} (hK : K.Streams) (h : w.Keyed K) (ivs : ℕ → ChachaIv) :
    w.Stores K (w.save K ivs false) ∧ w.Counts (w.save K ivs false) := by
  have hperm := h.perm_recordList
  have hview := decryptKeyPair_encryptKeyPair hK (ivs 0) w.viewPublicKey w.viewSecretKey
    w.oldestTimestamp w.walletKey
  have hdecrypted : ((w.save K ivs false).records.map (decryptKeyPair K · w.walletKey)) =
      w.firstRecord :: (w.recordList.filter fun r ↦
        r.spendPublicKey ≠ w.firstRecord.spendPublicKey) := by
    exact map_decryptKeyPair_mapIdx hK (fun i ↦ ivs (i + 1)) _ w.walletKey
  have hlen : (w.save K ivs false).records.length = w.recordList.length := by
    rw [← hperm.length_eq, ← hdecrypted, List.length_map]
  refine ⟨⟨rfl, ?_, _, ?_, hperm⟩, ?_⟩
  · exact ⟨congrArg WalletRecord.spendPublicKey hview, congrArg WalletRecord.spendSecretKey hview⟩
  · rw [List.take_of_length_le hlen.le, hdecrypted]
  · exact ⟨(length_recordList w).symm, (length_recordList w).symm⟩

/-- A wallet that can be trusted: its keys belong together, the oldest timestamp is that of its
oldest record, and the file stores it. -/
structure Kept (K : WalletFileCrypto) (w : Wallet) : Prop where
  keyed : w.Keyed K
  oldest : IsLeast w.creationTimestamps w.oldestTimestamp
  file : ∃ file, w.file = some file ∧ w.Stores K file ∧ w.Counts file

theorem Stores.withFile {w : Wallet} {file : WalletFile} (h : w.Stores K file)
    (other : Option WalletFile) : ({ w with file := other } : Wallet).Stores K file :=
  ⟨h.version, h.view, h.records⟩

theorem Keyed.withFile {w : Wallet} (h : w.Keyed K) (other : Option WalletFile) :
    ({ w with file := other } : Wallet).Keyed K :=
  ⟨h.first, h.filed, h.view, h.walletKey⟩

theorem Keyed.withOldest {w : Wallet} (h : w.Keyed K) (t : Timestamp) :
    ({ w with oldestTimestamp := t } : Wallet).Keyed K :=
  ⟨h.first, h.filed, h.view, h.walletKey⟩

theorem Kept.ofStored {w : Wallet} {file : WalletFile} (hw : w.Keyed K)
    (hold : IsLeast w.creationTimestamps w.oldestTimestamp) (hfile : w.Stores K file)
    (hcount : w.Counts file) : ({ w with file := some file } : Wallet).Kept K :=
  ⟨hw.withFile _, hold, file, rfl, hfile.withFile _, hcount⟩

/-- The file of a wallet opens to the wallet. -/
theorem openFile_fresh {w : Wallet} {file : WalletFile} (hw : w.Keyed K)
    (hold : IsLeast w.creationTimestamps w.oldestTimestamp) (hfile : w.Stores K file)
    (hcount : w.Counts file) :
    openFile K file { password := w.password, walletKey := K.generateChacha8Key w.password } =
      .ok { w with file := some file } :=
  openFile_eq _ hw hold hfile hcount hw.walletKey.symm
    (fun pk r hr ↦ by rw [Store.get_empty] at hr; cases hr)
    (UInt32.le_iff_toNat_le.2 (by
      have := w.oldestTimestamp.toNat_lt
      have hmax : (0xFFFFFFFF : Timestamp).toNat = 2 ^ 32 - 1 := rfl
      show w.oldestTimestamp.toNat ≤ (0xFFFFFFFF : Timestamp).toNat
      omega))

theorem same_self (w : Wallet) (file : Option WalletFile) :
    w.same { w with file } = true := by
  simp [same]

/-- Saving a wallet does not fail, and keeps it. -/
theorem saveAndCheck_kept {w : Wallet} (hK : K.Streams) (hw : w.Keyed K)
    (hold : IsLeast w.creationTimestamps w.oldestTimestamp) (ivs : ℕ → ChachaIv) :
    ∃ file, w.saveAndCheck K ivs = .ok { w with file := some file } ∧
      ({ w with file := some file } : Wallet).Kept K := by
  obtain ⟨hfile, hcount⟩ := save_stores hK hw ivs
  refine ⟨w.save K ivs false, ?_, Kept.ofStored hw hold hfile hcount⟩
  have hopen := openFile_fresh hw hold hfile hcount
  rw [saveAndCheck]
  show (openFile K (w.save K ivs false) _ >>= _) = _
  rw [hopen]
  show (if w.same { w with file := some (w.save K ivs false) } = false then _ else _) = _
  rw [same_self, if_neg (by decide)]
  rfl

/-! ## Creating -/

theorem creationTimestamps_singleton {w : Wallet} {r : WalletRecord}
    (h : w.records = (∅ : Store PublicKey WalletRecord).put r.spendPublicKey r) :
    w.creationTimestamps = {r.creationTimestamp} := by
  ext t
  simp only [creationTimestamps, h, Store.get_put, Store.get_empty, Set.mem_ofPred_eq,
    Set.mem_singleton_iff]
  constructor
  · rintro ⟨pk, s, hs, rfl⟩
    split at hs
    · cases hs; rfl
    · cases hs
  · rintro rfl
    exact ⟨r.spendPublicKey, r, if_pos rfl, rfl⟩

theorem isLeast_singleton_timestamp (t : Timestamp) : IsLeast {t} t :=
  ⟨rfl, fun s hs ↦ by
    rw [Set.mem_singleton_iff.1 hs]
    exact UInt32.le_refl t⟩

/-- A wallet with one record. -/
theorem keyed_of_one {w : Wallet}
    (h : w.records =
      (∅ : Store PublicKey WalletRecord).put w.firstRecord.spendPublicKey w.firstRecord)
    (hfirst : w.firstRecord.Matching K) (hview : K.keysMatch w.viewSecretKey w.viewPublicKey = true)
    (hkey : w.walletKey = K.generateChacha8Key w.password) : w.Keyed K where
  first := by rw [h, Store.get_put_self]
  filed := by
    intro pk r hr
    rw [h, Store.get_put] at hr
    split at hr
    · next heq =>
      cases hr
      exact ⟨heq, hfirst⟩
    · rw [Store.get_empty] at hr
      cases hr
  view := hview
  walletKey := hkey

theorem ofImported_keyed {password : String} {r : WalletRecord} {viewPublicKey : PublicKey}
    {viewSecretKey : SecretKey} {w : Wallet}
    (h : ofImported K password r viewPublicKey viewSecretKey = .ok w)
    (hview : w.isViewOnly = false) (ht : r.creationTimestamp = 0) :
    w.Keyed K ∧ IsLeast w.creationTimestamps w.oldestTimestamp := by
  rw [ofImported] at h
  split at h
  · cases h
  · next hkeys =>
    split at h
    · cases h
    · next hspend =>
      cases h
      have hsk : r.spendSecretKey ≠ 0 := by simpa [Wallet.isViewOnly] using hview
      refine ⟨keyed_of_one rfl ⟨hsk, ?_⟩ (by simpa using hkeys) rfl, ?_⟩
      · simpa [WalletFileCrypto.keysMatch, hsk] using hspend
      · rw [creationTimestamps_singleton (r := r) rfl, ht]
        exact isLeast_singleton_timestamp 0

/-- A wallet made from keys with a spend key. -/
theorem ofSource_keyed {password : String} {source : Source K} {w : Wallet}
    (h : ofSource K password source = .ok w) (hview : w.isViewOnly = false) :
    w.Keyed K ∧ IsLeast w.creationTimestamps w.oldestTimestamp := by
  cases source with
  | random now view spend =>
    cases h
    refine ⟨keyed_of_one rfl ⟨spend.ne_zero, spend.matching⟩ ?_ rfl, ?_⟩
    · simp [WalletFileCrypto.keysMatch, view.matching]
    · rw [creationTimestamps_singleton (r := {
        spendPublicKey := spend.publicKey
        spendSecretKey := spend.secretKey
        creationTimestamp := now }) rfl]
      exact isLeast_singleton_timestamp now
  | secretKeys => exact ofImported_keyed h hview rfl
  | keyPairs => exact ofImported_keyed h hview rfl

/-- A wallet that was created is kept. -/
theorem create_kept {password : String} {source : Source K} {ivs : ℕ → ChachaIv} {new w : Wallet}
    (hK : K.Streams) (hnew : ofSource K password source = .ok new)
    (hview : new.isViewOnly = false) (h : create K password source ivs = .ok w) : w.Kept K := by
  obtain ⟨hkeyed, hold⟩ := ofSource_keyed hnew hview
  obtain ⟨file, hsave, hkept⟩ := saveAndCheck_kept hK hkeyed hold ivs
  obtain ⟨file', hsome, hfile, hcount⟩ := hkept.file
  cases hsome
  have hopen := openFile_eq { new with file := some file } hkept.keyed hkept.oldest hfile
    hcount rfl (fun pk r hr ↦ hr) (UInt32.le_refl _)
  rw [create, hnew] at h
  simp only [bind, Except.bind] at h
  rw [hsave] at h
  simp only at h
  rw [hopen] at h
  cases h
  exact Kept.ofStored hkept.keyed hkept.oldest hfile hcount

/-! ## Changing -/

theorem setPassword_kept {w : Wallet} (hK : K.Streams) (h : w.Kept K) (password : String)
    (ivs : ℕ → ChachaIv) :
    ∃ w', w.setPassword K password ivs = (.ok (), w') ∧ w'.Kept K := by
  have hkeyed :
      ({ w with password, walletKey := K.generateChacha8Key password } : Wallet).Keyed K :=
    ⟨h.keyed.first, h.keyed.filed, h.keyed.view, rfl⟩
  obtain ⟨file, hsave, hkept⟩ := saveAndCheck_kept hK hkeyed h.oldest ivs
  refine ⟨_, ?_, hkept⟩
  rw [setPassword]
  simp only [hsave]

@[simp]
theorem raiseTo_spendPublicKey (ts : Timestamp) (r : WalletRecord) :
    (raiseTo ts r).spendPublicKey = r.spendPublicKey := by
  rw [raiseTo]
  split <;> rfl

@[simp]
theorem raiseTo_spendSecretKey (ts : Timestamp) (r : WalletRecord) :
    (raiseTo ts r).spendSecretKey = r.spendSecretKey := by
  rw [raiseTo]
  split <;> rfl

theorem le_raiseTo (ts : Timestamp) (r : WalletRecord) : ts ≤ (raiseTo ts r).creationTimestamp := by
  rw [raiseTo]
  split
  · exact UInt32.le_refl ts
  · next h => exact UInt32.not_lt.1 h

theorem get_map_raiseTo (ts : Timestamp) (records : Store PublicKey WalletRecord) (pk : PublicKey) :
    Store.get (records.map fun _ r ↦ raiseTo ts r) pk = (records.get pk).map (raiseTo ts) :=
  Std.ExtTreeMap.getElem?_map

theorem onFirstOutputFound_kept {w : Wallet} (hK : K.Streams) (h : w.Kept K) (ts : Timestamp)
    (ivs : ℕ → ChachaIv) :
    ∃ w', w.onFirstOutputFound K ts ivs = (.ok (), w') ∧ w'.Kept K := by
  rw [onFirstOutputFound]
  split
  · exact ⟨w, rfl, h⟩
  · next hts =>
    rw [not_or, UInt32.not_le] at hts
    set w₁ : Wallet := { w with
      oldestTimestamp := ts
      firstRecord := raiseTo ts w.firstRecord
      records := w.records.map fun _ r ↦ raiseTo ts r } with hw₁
    have hget : ∀ pk, w₁.records.get pk = (w.records.get pk).map (raiseTo ts) :=
      get_map_raiseTo ts w.records
    have hkeyed : w₁.Keyed K := by
      refine ⟨?_, fun pk r hr ↦ ?_, h.keyed.view, h.keyed.walletKey⟩
      · rw [hget]
        show (w.records.get (raiseTo ts w.firstRecord).spendPublicKey).map (raiseTo ts) = _
        rw [raiseTo_spendPublicKey, h.keyed.first]
        rfl
      · rw [hget, Option.map_eq_some_iff] at hr
        obtain ⟨old, hold, rfl⟩ := hr
        obtain ⟨hpk, hmatch⟩ := h.keyed.filed pk old hold
        refine ⟨by rw [raiseTo_spendPublicKey, hpk], ?_⟩
        rw [WalletRecord.Matching, raiseTo_spendPublicKey, raiseTo_spendSecretKey]
        exact hmatch
    have hold : IsLeast w₁.creationTimestamps w₁.oldestTimestamp := by
      obtain ⟨⟨pk, r, hr, hrt⟩, -⟩ := h.oldest
      refine ⟨⟨pk, raiseTo ts r, by rw [hget, hr]; rfl, ?_⟩, ?_⟩
      · rw [raiseTo, if_pos (by rw [hrt]; exact hts.2)]
      · rintro t ⟨pk, r, hr, rfl⟩
        rw [hget, Option.map_eq_some_iff] at hr
        obtain ⟨old, -, rfl⟩ := hr
        exact le_raiseTo ts old
    obtain ⟨file, hsave, hkept⟩ := saveAndCheck_kept hK hkeyed hold ivs
    refine ⟨_, ?_, hkept⟩
    simp only [hsave]

/-! ## Generating addresses -/

theorem drawNew_spec {w : Wallet} {draws rest : List (Keypair K)} {keys : Keypair K}
    (h : w.drawNew K draws = some (keys, rest)) : w.records.get keys.publicKey = none := by
  induction draws with
  | nil => cases h
  | cons d draws ih =>
    rw [drawNew] at h
    split at h
    · next hnone =>
      cases h
      exact hnone
    · exact ih h

/-- Where the record of one key comes from. -/
theorem newRecord_cases {ct now : Timestamp} {sk : SecretKey} {g g' : Generating K}
    {r : WalletRecord} (h : newRecord K ct now sk g = .ok (r, g')) :
    (sk = 0 ∧ r.Matching K ∧ r.creationTimestamp = now ∧
      g.wallet.records.get r.spendPublicKey = none ∧ ∃ draws, g' = { g with
        draws
        wallet := { g.wallet with oldestTimestamp := min g.wallet.oldestTimestamp now } }) ∨
    (sk ≠ 0 ∧ r.Matching K ∧ K.secretKeyToPublicKey sk = some r.spendPublicKey ∧
      r.creationTimestamp = ct ∧ g' = g) := by
  rw [newRecord] at h
  split at h
  · next hsk =>
    cases hdraw : g.wallet.drawNew K g.draws with
    | none => rw [hdraw] at h; cases h
    | some drawn =>
      obtain ⟨keys, draws⟩ := drawn
      rw [hdraw] at h
      cases h
      exact Or.inl ⟨hsk, ⟨keys.ne_zero, keys.matching⟩, rfl, drawNew_spec hdraw, draws, rfl⟩
  · next hsk =>
    cases hpk : K.secretKeyToPublicKey sk with
    | none => rw [hpk] at h; cases h
    | some pk =>
      rw [hpk] at h
      cases h
      exact Or.inr ⟨hsk, ⟨hsk, hpk⟩, rfl, rfl, rfl⟩

/-- A key that cannot be imported, or a draw that does not end. -/
theorem newRecord_error {ct now : Timestamp} {sk : SecretKey} {g : Generating K} {e : WalletError}
    (h : newRecord K ct now sk g = .error e) :
    e = .diverged ∨ e = .exception 101 "Imported keypair is invalid" ∧ sk ≠ 0 ∧
      K.secretKeyToPublicKey sk = none := by
  rw [newRecord] at h
  split at h
  · cases hdraw : g.wallet.drawNew K g.draws with
    | none => rw [hdraw] at h; cases h; exact Or.inl rfl
    | some drawn => rw [hdraw] at h; cases h
  · next hsk =>
    cases hpk : K.secretKeyToPublicKey sk with
    | none => rw [hpk] at h; cases h; exact Or.inr ⟨rfl, hsk, rfl⟩
    | some pk => rw [hpk] at h; cases h

/-- A record that is taken over is new, makes a known one older, or changes nothing. -/
theorem takeRecord_cases (iv : ChachaIv) (r : WalletRecord) {g : Generating K}
    (h : g.wallet.Keyed K) :
    (g.wallet.records.get r.spendPublicKey = none ∧ takeRecord K iv r g = { g with
      wallet := { g.wallet with records := g.wallet.records.put r.spendPublicKey r }
      file := WalletFile.writeAt g.position (encryptRecord K iv r g.wallet.walletKey) g.file
      position := g.position + 1
      result := g.result ++ [r] }) ∨
    (∃ old, g.wallet.records.get r.spendPublicKey = some old ∧
      r.creationTimestamp < old.creationTimestamp ∧
      takeRecord K iv r g = { g with
        wallet := { g.wallet with
          firstRecord :=
            if g.wallet.firstRecord.spendPublicKey = r.spendPublicKey then
              { old with creationTimestamp := r.creationTimestamp }
            else g.wallet.firstRecord
          records := g.wallet.records.put r.spendPublicKey
            { old with creationTimestamp := r.creationTimestamp }
          oldestTimestamp := min g.wallet.oldestTimestamp r.creationTimestamp }
        rescanFromCt := true
        result := g.result ++ [{ old with creationTimestamp := r.creationTimestamp }] }) ∨
    (∃ old, g.wallet.records.get r.spendPublicKey = some old ∧
      old.creationTimestamp ≤ r.creationTimestamp ∧
      takeRecord K iv r g = { g with result := g.result ++ [old] }) := by
  cases hget : g.wallet.records.get r.spendPublicKey with
  | none =>
    have hne : g.wallet.firstRecord.spendPublicKey ≠ r.spendPublicKey := by
      intro heq
      have := h.first
      rw [heq, hget] at this
      cases this
    left
    refine ⟨rfl, ?_⟩
    simp only [takeRecord, hne, false_and, if_false, hget]
  | some old =>
    have hfirst : g.wallet.firstRecord.spendPublicKey = r.spendPublicKey →
        g.wallet.firstRecord = old := by
      intro heq
      have := h.first
      rw [heq, hget] at this
      exact (Option.some.inj this).symm
    right
    by_cases hlt : r.creationTimestamp < old.creationTimestamp
    · refine Or.inl ⟨old, rfl, hlt, ?_⟩
      by_cases hpk : g.wallet.firstRecord.spendPublicKey = r.spendPublicKey
      · have heq := hfirst hpk
        subst heq
        simp only [takeRecord, hlt, hpk, and_self, if_true, hget]
      · simp only [takeRecord, hlt, hpk, false_and, if_false, if_true, hget]
    · refine Or.inr ⟨old, rfl, UInt32.not_lt.1 hlt, ?_⟩
      have hno : ¬ (g.wallet.firstRecord.spendPublicKey = r.spendPublicKey ∧
          r.creationTimestamp < g.wallet.firstRecord.creationTimestamp) := by
        rintro ⟨hpk, hlt'⟩
        rw [hfirst hpk] at hlt'
        exact hlt hlt'
      simp only [takeRecord, if_neg hno, hget, if_neg hlt]

/-- A new record under its own key. -/
theorem Keyed.put {w : Wallet} (h : w.Keyed K) {r : WalletRecord} (hr : r.Matching K)
    (hnew : w.records.get r.spendPublicKey = none) :
    ({ w with records := w.records.put r.spendPublicKey r } : Wallet).Keyed K where
  first := by
    show (w.records.put r.spendPublicKey r).get w.firstRecord.spendPublicKey = _
    rw [Store.get_put_of_ne _ _ fun heq ↦ ?_]
    · exact h.first
    · have := h.first
      rw [← heq, hnew] at this
      cases this
  filed := by
    intro pk s hs
    rw [Store.get_put] at hs
    split at hs
    · next heq =>
      cases hs
      exact ⟨heq, hr⟩
    · exact h.filed pk s hs
  view := h.view
  walletKey := h.walletKey

/-- A record that is made older. -/
theorem Keyed.lower {w : Wallet} (h : w.Keyed K) {old : WalletRecord} (ct oldest : Timestamp)
    (hold : w.records.get old.spendPublicKey = some old) :
    ({ w with
      firstRecord :=
        if w.firstRecord.spendPublicKey = old.spendPublicKey then
          { old with creationTimestamp := ct }
        else w.firstRecord
      records := w.records.put old.spendPublicKey { old with creationTimestamp := ct }
      oldestTimestamp := oldest } : Wallet).Keyed K where
  first := by
    dsimp only
    by_cases hpk : w.firstRecord.spendPublicKey = old.spendPublicKey
    · rw [if_pos hpk, Store.get_put_self]
    · rw [if_neg hpk, Store.get_put_of_ne _ _ (Ne.symm hpk), h.first]
  filed := by
    intro pk s hs
    rw [Store.get_put] at hs
    split at hs
    · next heq =>
      cases hs
      exact ⟨heq, (h.filed _ _ hold).2⟩
    · exact h.filed pk s hs
  view := h.view
  walletKey := h.walletKey

/-- A record appended to the file of a wallet. -/
theorem Stores.append {w : Wallet} {file : WalletFile} (hK : K.Streams) (h : w.Stores K file)
    (iv : ChachaIv) {r : WalletRecord} (hnew : w.records.get r.spendPublicKey = none) :
    ({ w with records := w.records.put r.spendPublicKey r } : Wallet).Stores K
      (WalletFile.writeAt w.recordList.length (encryptRecord K iv r w.walletKey) file) := by
  obtain ⟨others, heq, hperm⟩ := h.records
  have hput : (({ w with records := w.records.put r.spendPublicKey r } : Wallet).recordList).Perm
      (r :: w.recordList) := (Store.toList_put_perm w.records r hnew).map Prod.snd
  have hlen : ({ w with records := w.records.put r.spendPublicKey r } : Wallet).recordList.length =
      w.recordList.length + 1 := hput.length_eq
  have htake : (file.records.take w.recordList.length).length = w.recordList.length := by
    rw [List.length_take, Nat.min_eq_left h.le_length]
  refine ⟨h.version, h.view, others ++ [r], ?_, ?_⟩
  · rw [hlen]
    show (((file.records.take w.recordList.length ++ encryptRecord K iv r w.walletKey ::
      file.records.drop (w.recordList.length + 1)).take (w.recordList.length + 1)).map
        (decryptKeyPair K · w.walletKey)) = _
    rw [List.take_append, htake, List.take_of_length_le (by rw [htake]; omega),
      Nat.add_sub_cancel_left, List.take_succ_cons, List.take_zero, List.map_append, heq]
    simp [decryptKeyPair_encryptRecord hK]
  · rw [← List.cons_append]
    exact ((List.perm_append_singleton r _).trans (hperm.cons r)).trans hput.symm

/-- What the loop keeps, `c` being a lower bound of the imported timestamps: the oldest timestamp is
that of a record, no record is older than it and `c`, and until a rescan is asked for the file has
all records. -/
structure Generating.Kept (w₀ : Wallet) (c : Timestamp) (g : Generating K) : Prop where
  keyed : g.wallet.Keyed K
  attained : ∃ pk r, g.wallet.records.get pk = some r ∧
    r.creationTimestamp = g.wallet.oldestTimestamp
  bounded : ∀ pk r, g.wallet.records.get pk = some r →
    min g.wallet.oldestTimestamp c ≤ r.creationTimestamp
  oldest_le : g.wallet.oldestTimestamp ≤ w₀.oldestTimestamp
  position : g.position = g.wallet.recordList.length
  file : g.rescanFromCt = false → g.wallet.Stores K g.file

namespace Generating

variable {w₀ : Wallet} {c : Timestamp} {g : Generating K}

/-- A value put over another one. -/
theorem length_toList_put {s : Store PublicKey WalletRecord} {pk : PublicKey} {old : WalletRecord}
    (h : s.get pk = some old) (r : WalletRecord) :
    (s.put pk r).toList.length = s.toList.length := by
  have hcontains : s.contains pk = true := by
    rw [Std.ExtTreeMap.contains_eq_isSome_getElem?, show s[pk]? = some old from h]
    rfl
  rw [Std.ExtTreeMap.length_toList, Std.ExtTreeMap.length_toList, Store.put,
    Std.ExtTreeMap.size_insert, if_pos hcontains]

/-- The records behind a put. -/
theorem get_put_ne {w : Wallet} {r : WalletRecord} (hnew : w.records.get r.spendPublicKey = none)
    {pk : PublicKey} {s : WalletRecord} (hs : w.records.get pk = some s) :
    (w.records.put r.spendPublicKey r).get pk = some s := by
  rw [Store.get_put_of_ne _ _ fun heq ↦ ?_]
  · exact hs
  · rw [← heq, hnew] at hs
    cases hs

theorem Kept.append (hK : K.Streams) (h : g.Kept w₀ c) (iv : ChachaIv) {r : WalletRecord}
    (hr : r.Matching K) (hnew : g.wallet.records.get r.spendPublicKey = none)
    (draws : List (Keypair K)) {o : Timestamp} (ho : o ≤ g.wallet.oldestTimestamp)
    (hatt : o = g.wallet.oldestTimestamp ∨ r.creationTimestamp = o)
    (hle : min o c ≤ r.creationTimestamp) :
    (takeRecord K iv r { g with
      draws, wallet := { g.wallet with oldestTimestamp := o } }).Kept w₀ c := by
  have hkeyed := h.keyed.withOldest o
  have hlen : (({ g.wallet with records := g.wallet.records.put r.spendPublicKey r } :
      Wallet).recordList).length = g.wallet.recordList.length + 1 :=
    ((Store.toList_put_perm g.wallet.records r hnew).map Prod.snd).length_eq
  rcases takeRecord_cases iv r
    (g := { g with draws, wallet := { g.wallet with oldestTimestamp := o } }) hkeyed with
    ⟨-, heq⟩ | ⟨old, hget, -, -⟩ | ⟨old, hget, -, -⟩
  · rw [heq]
    refine ⟨hkeyed.put hr hnew, ?_, fun pk s hs ↦ ?_, ?_, ?_, fun hfile ↦ ?_⟩
    · rcases hatt with rfl | hatt
      · obtain ⟨pk, s, hs, hst⟩ := h.attained
        exact ⟨pk, s, get_put_ne hnew hs, hst⟩
      · exact ⟨r.spendPublicKey, r, Store.get_put_self _ _ _, hatt⟩
    · rw [Store.get_put] at hs
      split at hs
      · cases hs
        exact hle
      · have hs := h.bounded pk s hs
        simp only [UInt32.le_iff_toNat_le, toNat_min] at hs ho ⊢
        omega
    · exact UInt32.le_trans ho h.oldest_le
    · rw [← h.position] at hlen
      exact hlen.symm
    · have hstores := (h.file hfile).append hK iv hnew
      rw [← h.position] at hstores
      exact ⟨hstores.version, hstores.view, hstores.records⟩
  · exact absurd (hnew.symm.trans hget) (by simp)
  · exact absurd (hnew.symm.trans hget) (by simp)

/-- One key of the list. -/
theorem Kept.step (hK : K.Streams) (h : g.Kept w₀ c) {ct now : Timestamp} {sk : SecretKey}
    (hc : sk ≠ 0 → c ≤ ct) (iv : ChachaIv) {r : WalletRecord} {g' : Generating K}
    (hnew : newRecord K ct now sk g = .ok (r, g')) : (takeRecord K iv r g').Kept w₀ c := by
  rcases newRecord_cases hnew with ⟨-, hr, hct, hnone, draws, rfl⟩ | ⟨hsk, hr, -, hct, hg⟩
  · refine h.append hK iv hr hnone draws ?_ ?_ ?_
    · simp only [UInt32.le_iff_toNat_le, toNat_min]
      omega
    · rw [hct]
      rcases min_cases_toNat g.wallet.oldestTimestamp now with ⟨heq, -⟩ | ⟨heq, -⟩
      · exact Or.inl heq
      · exact Or.inr heq.symm
    · rw [hct]
      simp only [UInt32.le_iff_toNat_le, toNat_min]
      omega
  · subst g'
    have hc := hc hsk
    rcases takeRecord_cases iv r h.keyed with
      ⟨hnone, -⟩ | ⟨old, hget, hlt, heq⟩ | ⟨old, hget, hle, heq⟩
    · refine h.append hK iv hr hnone g.draws (UInt32.le_refl _) (Or.inl rfl) ?_
      rw [hct]
      simp only [UInt32.le_iff_toNat_le, toNat_min] at hc ⊢
      omega
    · have hpk := (h.keyed.filed _ _ hget).1
      have hold : g.wallet.records.get old.spendPublicKey = some old := by rw [hpk, hget]
      rw [heq, ← hpk]
      refine ⟨h.keyed.lower _ _ hold, ?_, fun pk s hs ↦ ?_, ?_, ?_, by simp⟩
      · rcases min_cases_toNat g.wallet.oldestTimestamp r.creationTimestamp with
          ⟨hmin, hle⟩ | ⟨hmin, -⟩
        · obtain ⟨pk, s, hs, hst⟩ := h.attained
          refine ⟨pk, s, ?_, by rw [hst]; exact hmin.symm⟩
          show (g.wallet.records.put _ _).get pk = _
          rw [Store.get_put_of_ne _ _ fun heq ↦ ?_]
          · exact hs
          · -- the record made older was younger than the oldest one
            rw [← heq, hold] at hs
            cases hs
            rw [hst, UInt32.lt_iff_toNat_lt] at hlt
            rw [UInt32.le_iff_toNat_le] at hle
            omega
        · exact ⟨old.spendPublicKey, _, Store.get_put_self _ _ _, hmin.symm⟩
      · rw [Store.get_put] at hs
        split at hs
        · cases hs
          simp only [UInt32.le_iff_toNat_le, toNat_min]
          omega
        · have hs := h.bounded pk s hs
          simp only [UInt32.le_iff_toNat_le, toNat_min] at hs ⊢
          omega
      · have := h.oldest_le
        simp only [UInt32.le_iff_toNat_le, toNat_min] at this ⊢
        omega
      · rw [h.position, length_recordList, length_recordList]
        exact (length_toList_put hold _).symm
    · rw [heq]
      exact ⟨h.keyed, h.attained, h.bounded, h.oldest_le, h.position, h.file⟩

/-- The whole list, however the loop ends. -/
theorem Kept.loop (hK : K.Streams) {ct : Timestamp} (now : Timestamp) (ivs : ℕ → ChachaIv)
    {sks : List SecretKey} (hc : ∀ sk ∈ sks, sk ≠ 0 → c ≤ ct) :
    ∀ {g : Generating K}, g.Kept w₀ c → (generateLoop K ct now ivs sks g).2.Kept w₀ c := by
  induction sks with
  | nil => exact fun h ↦ h
  | cons sk sks ih =>
    intro g h
    rw [generateLoop]
    cases hnew : newRecord K ct now sk g with
    | error e => exact h
    | ok made =>
      obtain ⟨r, g'⟩ := made
      exact ih (fun s hs ↦ hc s (List.mem_cons_of_mem _ hs))
        (h.step hK (hc sk List.mem_cons_self) (ivs g'.position) hnew)

/-- The loop fails at a key that cannot be imported, or does not end. -/
theorem generateLoop_failed {ct now : Timestamp} {ivs : ℕ → ChachaIv} {sks : List SecretKey}
    {e : WalletError} : ∀ {g : Generating K}, (generateLoop K ct now ivs sks g).1 = some e →
      e = .diverged ∨ e = .exception 101 "Imported keypair is invalid" ∧
        ∃ sk ∈ sks, sk ≠ 0 ∧ K.secretKeyToPublicKey sk = none := by
  induction sks with
  | nil => intro g h; cases h
  | cons sk sks ih =>
    intro g h
    rw [generateLoop] at h
    cases hnew : newRecord K ct now sk g with
    | error f =>
      rw [hnew] at h
      cases h
      rcases newRecord_error hnew with hdiv | ⟨hexc, hbad⟩
      · exact Or.inl hdiv
      · exact Or.inr ⟨hexc, sk, List.mem_cons_self, hbad⟩
    | ok made =>
      rw [hnew] at h
      rcases ih h with hdiv | ⟨hexc, s, hs, hbad⟩
      · exact Or.inl hdiv
      · exact Or.inr ⟨hexc, s, List.mem_cons_of_mem _ hs, hbad⟩

/-- A rescan is asked for and the oldest timestamp is not above `ct`, or every record of the wallet
at the beginning is still younger. -/
def Lowered (w₀ : Wallet) (ct : Timestamp) (g : Generating K) : Prop :=
  (g.rescanFromCt = true ∧ g.wallet.oldestTimestamp ≤ ct) ∨
    ∀ pk, w₀.records.get pk ≠ none → ∃ r, g.wallet.records.get pk = some r ∧
      ct < r.creationTimestamp

theorem takeRecord_asked {ct : Timestamp} (hg : g.wallet.Keyed K)
    (h : g.rescanFromCt = true ∧ g.wallet.oldestTimestamp ≤ ct) (iv : ChachaIv) (r : WalletRecord) :
    (takeRecord K iv r g).rescanFromCt = true ∧
      (takeRecord K iv r g).wallet.oldestTimestamp ≤ ct := by
  rcases takeRecord_cases iv r hg with
    ⟨-, heq⟩ | ⟨old, -, -, heq⟩ | ⟨old, -, -, heq⟩
  · rw [heq]
    exact h
  · rw [heq]
    refine ⟨rfl, ?_⟩
    have := h.2
    simp only [UInt32.le_iff_toNat_le, toNat_min] at this ⊢
    omega
  · rw [heq]
    exact h

/-- A rescan that was asked for stays asked for. -/
theorem asked_stays {ct now : Timestamp} {sk : SecretKey} (hg : g.wallet.Keyed K)
    (h : g.rescanFromCt = true ∧ g.wallet.oldestTimestamp ≤ ct) (iv : ChachaIv) {r : WalletRecord}
    {g' : Generating K} (hnew : newRecord K ct now sk g = .ok (r, g')) :
    (takeRecord K iv r g').rescanFromCt = true ∧
      (takeRecord K iv r g').wallet.oldestTimestamp ≤ ct := by
  rcases newRecord_cases hnew with ⟨-, -, -, -, draws, rfl⟩ | ⟨-, -, -, -, hg'⟩
  · refine takeRecord_asked (g := { g with
      draws, wallet := { g.wallet with oldestTimestamp := min g.wallet.oldestTimestamp now } })
      (hg.withOldest _) ⟨h.1, ?_⟩ iv r
    have := h.2
    simp only [UInt32.le_iff_toNat_le, toNat_min] at this ⊢
    omega
  · subst g'
    exact takeRecord_asked hg h iv r

theorem Lowered.step {ct now : Timestamp} {sk : SecretKey} (h : g.Lowered w₀ ct)
    (hg : g.wallet.Keyed K) (iv : ChachaIv) {r : WalletRecord} {g' : Generating K}
    (hnew : newRecord K ct now sk g = .ok (r, g')) :
    (takeRecord K iv r g').Lowered w₀ ct ∧
      (sk ≠ 0 → (∀ pk, K.secretKeyToPublicKey sk = some pk → w₀.records.get pk ≠ none) →
        (takeRecord K iv r g').rescanFromCt = true ∧
          (takeRecord K iv r g').wallet.oldestTimestamp ≤ ct) := by
  rcases h with hasked | hall
  · have hstays := asked_stays hg hasked iv hnew
    exact ⟨Or.inl hstays, fun _ _ ↦ hstays⟩
  rcases newRecord_cases hnew with ⟨hsk, -, -, hnone, draws, rfl⟩ | ⟨-, -, hpk, hct, hg'⟩
  · refine ⟨Or.inr fun pk hpk ↦ ?_, fun hne ↦ absurd hsk hne⟩
    rcases takeRecord_cases iv r (g := { g with
      draws, wallet := { g.wallet with
        oldestTimestamp := min g.wallet.oldestTimestamp now } }) (hg.withOldest _) with
      ⟨-, heq⟩ | ⟨old, hget, -, -⟩ | ⟨old, hget, -, -⟩
    · obtain ⟨s, hs, hlt⟩ := hall pk hpk
      rw [heq]
      exact ⟨s, get_put_ne hnone hs, hlt⟩
    · exact absurd (hnone.symm.trans hget) (by simp)
    · exact absurd (hnone.symm.trans hget) (by simp)
  · subst g'
    rcases takeRecord_cases iv r hg with
      ⟨hnone, heq⟩ | ⟨old, hget, hlt, heq⟩ | ⟨old, hget, hle, heq⟩
    · rw [heq]
      refine ⟨Or.inr fun pk hpk ↦ ?_, fun _ hrec ↦ ?_⟩
      · obtain ⟨s, hs, hlt⟩ := hall pk hpk
        exact ⟨s, get_put_ne hnone hs, hlt⟩
      · obtain ⟨s, hs, -⟩ := hall _ (hrec _ hpk)
        rw [hnone] at hs
        cases hs
    · have hasked : (takeRecord K iv r g).rescanFromCt = true ∧
          (takeRecord K iv r g).wallet.oldestTimestamp ≤ ct := by
        rw [heq]
        refine ⟨rfl, ?_⟩
        rw [hct]
        simp only [UInt32.le_iff_toNat_le, toNat_min]
        omega
      exact ⟨Or.inl hasked, fun _ _ ↦ hasked⟩
    · rw [heq]
      refine ⟨Or.inr hall, fun _ hrec ↦ ?_⟩
      obtain ⟨s, hs, hlt⟩ := hall _ (hrec _ hpk)
      rw [hget] at hs
      cases hs
      rw [UInt32.lt_iff_toNat_lt] at hlt
      rw [UInt32.le_iff_toNat_le, hct] at hle
      omega

/-- A known key in the list asks for a rescan where it is imported as older. -/
theorem Lowered.loop (ct now : Timestamp) (ivs : ℕ → ChachaIv) (hK : K.Streams)
    {sks : List SecretKey} :
    ∀ {g : Generating K}, g.Kept w₀ 0 → g.Lowered w₀ ct →
      (generateLoop K ct now ivs sks g).1 = none →
        (generateLoop K ct now ivs sks g).2.Lowered w₀ ct ∧
        ((∃ sk ∈ sks, sk ≠ 0 ∧ ∀ pk, K.secretKeyToPublicKey sk = some pk →
            w₀.records.get pk ≠ none) ∨
            g.rescanFromCt = true ∧ g.wallet.oldestTimestamp ≤ ct →
          (generateLoop K ct now ivs sks g).2.rescanFromCt = true ∧
            (generateLoop K ct now ivs sks g).2.wallet.oldestTimestamp ≤ ct) := by
  induction sks with
  | nil => exact fun _ h _ ↦ ⟨h, fun hor ↦ hor.resolve_left (by simp)⟩
  | cons sk sks ih =>
    intro g hg h hnone
    rw [generateLoop] at hnone ⊢
    cases hnew : newRecord K ct now sk g with
    | error e => rw [hnew] at hnone; cases hnone
    | ok made =>
      obtain ⟨r, g'⟩ := made
      rw [hnew] at hnone
      obtain ⟨hstep, hrec⟩ := h.step hg.keyed (ivs g'.position) hnew
      have hkept := hg.step hK (c := 0)
        (fun _ ↦ UInt32.le_iff_toNat_le.2 (Nat.zero_le _)) (ivs g'.position) hnew
      obtain ⟨hlow, hrest⟩ := ih hkept hstep hnone
      refine ⟨hlow, fun hor ↦ hrest ?_⟩
      rcases hor with ⟨s, hs, hne, hpk⟩ | hleft
      · rcases List.mem_cons.1 hs with rfl | hs
        · exact Or.inr (hrec hne hpk)
        · exact Or.inl ⟨s, hs, hne, hpk⟩
      · right
        exact asked_stays hg.keyed hleft (ivs g'.position) hnew

end Generating

/-! ## Lists of keys -/

/-- The keys of a list before the first one that cannot be imported. -/
def validKeys (K : WalletFileCrypto) (sks : List SecretKey) : List SecretKey :=
  sks.takeWhile fun sk ↦ decide (sk = 0) || (K.secretKeyToPublicKey sk).isSome

/-- An imported key that the wallet has. -/
def HasRecord (K : WalletFileCrypto) (w : Wallet) (sk : SecretKey) : Prop :=
  sk ≠ 0 ∧ ∃ pk r, K.secretKeyToPublicKey sk = some pk ∧ w.records.get pk = some r

/-- An imported key that the wallet has from a time not after `ct`. -/
def HasOlder (K : WalletFileCrypto) (w : Wallet) (ct : Timestamp) (sk : SecretKey) : Prop :=
  sk ≠ 0 ∧ ∃ pk r, K.secretKeyToPublicKey sk = some pk ∧ w.records.get pk = some r ∧
    r.creationTimestamp ≤ ct

theorem validKeys_eq_self_iff {sks : List SecretKey} :
    validKeys K sks = sks ↔ ∀ sk ∈ sks, sk ≠ 0 → K.secretKeyToPublicKey sk ≠ none := by
  rw [validKeys, List.takeWhile_eq_self_iff]
  refine forall₂_congr fun sk _ ↦ ?_
  rw [Bool.or_eq_true, decide_eq_true_iff, Option.isSome_iff_ne_none]
  tauto

namespace Generating

/-- A list with a key that cannot be imported, behind keys that the wallet has. -/
theorem generateLoop_unchanged {ct : Timestamp} (now : Timestamp) (ivs : ℕ → ChachaIv)
    {sks : List SecretKey}
    (hinvalid : validKeys K sks ≠ sks) :
    ∀ {g : Generating K}, g.wallet.Keyed K → (∀ sk ∈ validKeys K sks, g.wallet.HasOlder K ct sk) →
      (generateLoop K ct now ivs sks g).1 = some (.exception 101 "Imported keypair is invalid") ∧
        (generateLoop K ct now ivs sks g).2.wallet = g.wallet ∧
        (generateLoop K ct now ivs sks g).2.file = g.file := by
  induction sks with
  | nil => exact absurd rfl hinvalid
  | cons sk sks ih =>
    intro g hg hold
    rw [generateLoop]
    by_cases hvalid : (decide (sk = 0) || (K.secretKeyToPublicKey sk).isSome) = true
    · have hcons : validKeys K (sk :: sks) = sk :: validKeys K sks :=
        List.takeWhile_cons_of_pos hvalid
      rw [hcons] at hinvalid hold
      obtain ⟨hne, pk, old, hpk, hget, hle⟩ := hold sk List.mem_cons_self
      have hnew : newRecord K ct now sk g = .ok ({
          spendPublicKey := pk
          spendSecretKey := sk
          creationTimestamp := ct }, g) := by
        rw [newRecord, if_neg hne, hpk]
      rw [hnew]
      rcases takeRecord_cases (ivs g.position) {
        spendPublicKey := pk
        spendSecretKey := sk
        creationTimestamp := ct } hg with ⟨hnone, -⟩ | ⟨old', hget', hlt, -⟩ | ⟨old', -, -, heq⟩
      · exact absurd (hnone.symm.trans hget) (by simp)
      · rw [hget] at hget'
        cases hget'
        have hlt : ct < old.creationTimestamp := hlt
        rw [UInt32.le_iff_toNat_le] at hle
        rw [UInt32.lt_iff_toNat_lt] at hlt
        omega
      · simp only [heq]
        exact ih (fun h ↦ hinvalid (by rw [h]))
          (g := { g with result := g.result ++ [old'] }) hg
          fun s hs ↦ hold s (List.mem_cons_of_mem _ hs)
    · rw [Bool.or_eq_true, decide_eq_true_iff, Option.isSome_iff_ne_none, not_or, not_not] at hvalid
      have hnew : newRecord K ct now sk g =
          .error (.exception 101 "Imported keypair is invalid") := by
        rw [newRecord, if_neg hvalid.1, hvalid.2]
      rw [hnew]
      exact ⟨rfl, rfl, rfl⟩

theorem start_kept {w : Wallet} {file : WalletFile} (h : w.Kept K) (hsome : w.file = some file)
    (c : Timestamp) (draws : List (Keypair K)) :
    Kept (K := K) w c { wallet := w, file, position := w.records.toList.length, draws } := by
  obtain ⟨file', hfile, hstores, -⟩ := h.file
  rw [hsome] at hfile
  cases hfile
  obtain ⟨⟨pk, r, hr, hrt⟩, hlower⟩ := h.oldest
  refine ⟨h.keyed, ⟨pk, r, hr, hrt⟩, fun pk s hs ↦ ?_, UInt32.le_refl _,
    (length_recordList w).symm, fun _ ↦ hstores⟩
  have := hlower ⟨pk, s, hs, rfl⟩
  simp only [UInt32.le_iff_toNat_le, toNat_min] at this ⊢
  omega

theorem start_lowered {w : Wallet} (h : w.Kept K) {ct : Timestamp} (hlt : ct < w.oldestTimestamp)
    (file : WalletFile) (draws : List (Keypair K)) :
    Lowered (K := K) w ct { wallet := w, file, position := w.records.toList.length, draws } := by
  refine Or.inr fun pk hpk ↦ ?_
  obtain ⟨r, hr⟩ := Option.ne_none_iff_exists'.1 hpk
  exact ⟨r, hr, UInt32.lt_of_lt_of_le hlt (h.oldest.2 ⟨pk, r, hr, rfl⟩)⟩

/-- The wallet that the loop leaves, once its oldest timestamp is that of the oldest record. -/
theorem Kept.oldest {w₀ : Wallet} {c : Timestamp} {g : Generating K} (h : g.Kept w₀ c)
    (hc : g.wallet.oldestTimestamp ≤ c) :
    IsLeast g.wallet.creationTimestamps g.wallet.oldestTimestamp := by
  refine ⟨h.attained, ?_⟩
  rintro t ⟨pk, r, hr, rfl⟩
  have := h.bounded pk r hr
  simp only [UInt32.le_iff_toNat_le, toNat_min] at this hc ⊢
  omega

end Generating

theorem generateNewAddresses_eq {w : Wallet} {file : WalletFile} (h : w.Kept K)
    (hsome : w.file = some file) (sks : List SecretKey) (ct now : Timestamp)
    (draws : List (Keypair K)) (ivs : ℕ → ChachaIv) :
    w.generateNewAddresses K sks ct now draws ivs =
      finishGenerating K ivs (generateLoop K ct now ivs sks
        { wallet := w, file, position := w.records.toList.length, draws }) := by
  rw [generateNewAddresses, h.keyed.isViewOnly, if_neg (by decide)]
  simp only [hsome]

/-- A list of keys that can be imported: if one of those imported is older than the wallet, the
wallet must have one of them. -/
theorem generateNewAddresses_kept {w : Wallet} (hK : K.Streams) (h : w.Kept K)
    {sks : List SecretKey} {ct : Timestamp} (now : Timestamp) (draws : List (Keypair K))
    (ivs : ℕ → ChachaIv) (hvalid : validKeys K sks = sks)
    (hold : ct < w.oldestTimestamp → (∀ sk ∈ sks, sk = 0) ∨ ∃ sk ∈ sks, w.HasRecord K sk) :
    (∃ records rescan w', w.generateNewAddresses K sks ct now draws ivs =
        (.ok (records, rescan), w') ∧ w'.Kept K ∧
        ((∃ sk ∈ sks, sk ≠ 0) → ct < w.oldestTimestamp → rescan = true)) ∨
      ∃ w', w.generateNewAddresses K sks ct now draws ivs = (.error .diverged, w') := by
  obtain ⟨file, hsome, hstores, hcount⟩ := h.file
  rw [generateNewAddresses_eq h hsome]
  obtain ⟨failed, g, hloop⟩ : ∃ failed g, generateLoop K ct now ivs sks
      { wallet := w, file, position := w.records.toList.length, draws } = (failed, g) :=
    ⟨_, _, rfl⟩
  rw [hloop]
  cases failed with
  | some e =>
    right
    rcases Generating.generateLoop_failed (congrArg Prod.fst hloop) with
      hdiv | ⟨-, sk, hsk, hne, hbad⟩
    · exact ⟨_, by rw [hdiv]; rfl⟩
    · exact absurd hbad (validKeys_eq_self_iff.1 hvalid sk hsk hne)
  | none =>
    left
    have hkept : ∀ c, (∀ sk ∈ sks, sk ≠ 0 → c ≤ ct) → g.Kept w c := by
      intro c hc
      have := Generating.Kept.loop hK now ivs hc
        (Generating.start_kept h hsome c draws)
      rw [hloop] at this
      exact this
    -- a bound of the imported timestamps that the oldest one does not exceed
    obtain ⟨c, hc, hle⟩ : ∃ c, (∀ sk ∈ sks, sk ≠ 0 → c ≤ ct) ∧ g.wallet.oldestTimestamp ≤ c ∧
        ((∃ sk ∈ sks, sk ≠ 0) → ct < w.oldestTimestamp → g.rescanFromCt = true) := by
      by_cases hlt : ct < w.oldestTimestamp
      · rcases hold hlt with hrandom | ⟨sk, hsk, hne, pk, r, hpk, hr⟩
        · refine ⟨0xFFFFFFFF, fun sk hsk hne ↦ absurd (hrandom sk hsk) hne, ?_, ?_⟩
          · exact UInt32.le_iff_toNat_le.2 (Nat.le_of_lt_succ g.wallet.oldestTimestamp.toNat_lt)
          · rintro ⟨sk, hsk, hne⟩
            exact absurd (hrandom sk hsk) hne
        · have hlow := Generating.Lowered.loop ct now ivs hK
            (Generating.start_kept h hsome 0 draws)
            (Generating.start_lowered h hlt file draws) (congrArg Prod.fst hloop)
          rw [hloop] at hlow
          have hasked := hlow.2 (Or.inl ⟨sk, hsk, hne, fun pk' hpk' ↦ by
            rw [hpk] at hpk'
            cases hpk'
            rw [hr]
            exact Option.some_ne_none r⟩)
          exact ⟨ct, fun _ _ _ ↦ UInt32.le_refl ct, hasked.2, fun _ _ ↦ hasked.1⟩
      · refine ⟨ct, fun _ _ _ ↦ UInt32.le_refl ct, ?_, fun _ hlt' ↦ absurd hlt' hlt⟩
        exact UInt32.le_trans (hkept ct fun _ _ _ ↦ UInt32.le_refl ct).oldest_le
          (UInt32.not_lt.1 hlt)
    have hkept := hkept c hc
    have holdest := hkept.oldest hle.1
    by_cases hrescan : g.rescanFromCt = true
    · obtain ⟨file', hsave, hsaved⟩ := saveAndCheck_kept hK
        (hkept.keyed.withFile (some { g.file with
          itemCapacity := g.wallet.records.toList.length
          itemCount := g.wallet.records.toList.length })) holdest ivs
      refine ⟨g.result, true, _, ?_, hsaved, fun _ _ ↦ rfl⟩
      simp only [finishGenerating, hrescan, if_true, hsave]
    · rw [Bool.not_eq_true] at hrescan
      refine ⟨g.result, false, { g.wallet with file := some { g.file with
        itemCapacity := g.wallet.records.toList.length
        itemCount := g.wallet.records.toList.length } }, ?_, ?_, fun hex hlt ↦ ?_⟩
      · simp only [finishGenerating, hrescan]
        rfl
      · have hfile := hkept.file hrescan
        exact Kept.ofStored hkept.keyed holdest ⟨hfile.version, hfile.view, hfile.records⟩
          ⟨(length_recordList _).symm, (length_recordList _).symm⟩
      · rw [← hle.2 hex hlt, hrescan]

/-- A list with a key that cannot be imported, all keys before it known to the wallet. -/
theorem generateNewAddresses_unchanged {w : Wallet} (h : w.Kept K) {sks : List SecretKey}
    {ct now : Timestamp} {draws : List (Keypair K)} {ivs : ℕ → ChachaIv}
    (hinvalid : validKeys K sks ≠ sks) (hold : ∀ sk ∈ validKeys K sks, w.HasOlder K ct sk) :
    w.generateNewAddresses K sks ct now draws ivs =
      (.error (.exception 101 "Imported keypair is invalid"), w) := by
  obtain ⟨file, hsome, -, -⟩ := h.file
  obtain ⟨hfailed, hwallet, hfile⟩ := Generating.generateLoop_unchanged now ivs
    hinvalid (g := { wallet := w, file, position := w.records.toList.length, draws }) h.keyed hold
  obtain ⟨failed, g, hloop⟩ : ∃ failed g, generateLoop K ct now ivs sks
      { wallet := w, file, position := w.records.toList.length, draws } = (failed, g) :=
    ⟨_, _, rfl⟩
  rw [hloop] at hfailed hwallet hfile
  cases hfailed
  rw [generateNewAddresses_eq h hsome, hloop]
  simp only at hwallet hfile
  rw [finishGenerating, hwallet, hfile, ← hsome]

/-- The wallet is the one that its file holds, and its oldest timestamp that of a record. -/
structure Intact (K : WalletFileCrypto) (w : Wallet) : Prop where
  oldest : IsLeast w.creationTimestamps w.oldestTimestamp
  loaded : ∃ file other, w.file = some file ∧
    openFile K file { password := w.password, walletKey := K.generateChacha8Key w.password } =
      .ok other ∧ w.same other = true

theorem Kept.intact {w : Wallet} (h : w.Kept K) : w.Intact K := by
  obtain ⟨file, hsome, hstores, hcount⟩ := h.file
  exact ⟨h.oldest, file, _, hsome, openFile_fresh h.keyed h.oldest hstores hcount, same_self w _⟩

end Wallet

/-! ## Runs -/

namespace WalletOperation

/-- The file of the wallet can be written, an import from before the oldest timestamp asks for a
rescan, and a call that throws leaves the records and timestamps. -/
structure Sound (w : Wallet) (op : WalletOperation K) : Prop where
  saves : ∀ ivs e, (op.run ivs w).1 = some e →
    e = .diverged ∨ e = .exception 101 "Imported keypair is invalid"
  rescans : ∀ ivs sks ct now draws, op = .generateNewAddresses sks ct now draws →
    (op.run ivs w).1 = none → (∃ sk ∈ sks, sk ≠ 0) → ct < w.oldestTimestamp →
      (op.run ivs w).2.1 = true
  unchanged : ∀ ivs e, (op.run ivs w).1 = some e → e ≠ .diverged →
    (op.run ivs w).2.2.records = w.records ∧ (op.run ivs w).2.2.firstRecord = w.firstRecord ∧
      (op.run ivs w).2.2.oldestTimestamp = w.oldestTimestamp

/-- An import that does no harm: where a key of the list cannot be imported, the keys before it are
known from earlier; else, where the keys are older than the wallet, one of them is known. -/
def Harmless (w : Wallet) : WalletOperation K → Prop
  | generateNewAddresses sks ct _ _ =>
    if Wallet.validKeys K sks = sks then
      ct < w.oldestTimestamp → (∀ sk ∈ sks, sk = 0) ∨ ∃ sk ∈ sks, w.HasRecord K sk
    else ∀ sk ∈ Wallet.validKeys K sks, w.HasOlder K ct sk
  | _ => True

/-- A harmless operation on a wallet that is kept: it keeps the wallet and is sound. -/
theorem run_kept (hK : K.Streams) {w : Wallet} (h : w.Kept K) {op : WalletOperation K}
    (hop : op.Harmless w) (ivs : ℕ → ChachaIv) :
    ((op.run ivs w).1 ≠ some .diverged → (op.run ivs w).2.2.Kept K) ∧
      (∀ e, (op.run ivs w).1 = some e →
        e = .diverged ∨ e = .exception 101 "Imported keypair is invalid" ∧
          (op.run ivs w).2.2 = w) ∧
      ∀ sks ct now draws, op = .generateNewAddresses sks ct now draws →
        (op.run ivs w).1 = none → (∃ sk ∈ sks, sk ≠ 0) → ct < w.oldestTimestamp →
          (op.run ivs w).2.1 = true := by
  cases op with
  | generateNewAddresses sks ct now draws =>
    by_cases hvalid : Wallet.validKeys K sks = sks
    · rw [Harmless, if_pos hvalid] at hop
      rcases Wallet.generateNewAddresses_kept hK h now draws ivs
        hvalid hop with ⟨records, rescan, w', heq, hkept, hrescan⟩ | ⟨w', heq⟩
      · rw [show (generateNewAddresses sks ct now draws).run ivs w = (none, rescan, w') by
          rw [run, heq]]
        refine ⟨fun _ ↦ hkept, fun e he ↦ (nomatch he), ?_⟩
        rintro _ _ _ _ ⟨⟩ - hex hlt
        exact hrescan hex hlt
      · rw [show (generateNewAddresses sks ct now draws).run ivs w =
          (some .diverged, false, w') by rw [run, heq]]
        refine ⟨fun hne ↦ absurd rfl hne, fun e he ↦ Or.inl (Option.some.inj he).symm, ?_⟩
        rintro _ _ _ _ - hnone
        cases hnone
    · rw [Harmless, if_neg hvalid] at hop
      rw [show (generateNewAddresses sks ct now draws).run ivs w =
        (some (.exception 101 "Imported keypair is invalid"), false, w) by
          rw [run, Wallet.generateNewAddresses_unchanged h hvalid hop]]
      refine ⟨fun _ ↦ h, fun e he ↦ Or.inr ⟨(Option.some.inj he).symm, rfl⟩, ?_⟩
      rintro _ _ _ _ - hnone
      cases hnone
  | onFirstOutputFound ts =>
    obtain ⟨w', heq, hkept⟩ := Wallet.onFirstOutputFound_kept hK h ts ivs
    rw [show (onFirstOutputFound ts).run ivs w = (none, false, w') by rw [run, heq]]
    refine ⟨fun _ ↦ hkept, fun e he ↦ (nomatch he), ?_⟩
    rintro _ _ _ _ ⟨⟩
  | setPassword password =>
    obtain ⟨w', heq, hkept⟩ := Wallet.setPassword_kept hK h password ivs
    rw [show (setPassword password).run ivs w = (none, false, w') by rw [run, heq]]
    refine ⟨fun _ ↦ hkept, fun e he ↦ (nomatch he), ?_⟩
    rintro _ _ _ _ ⟨⟩

theorem Harmless.sound (hK : K.Streams) {w : Wallet} (h : w.Kept K) {op : WalletOperation K}
    (hop : op.Harmless w) : op.Sound w where
  saves ivs e he := by
    rcases (run_kept hK h hop ivs).2.1 e he with hdiv | ⟨hexc, -⟩
    · exact Or.inl hdiv
    · exact Or.inr hexc
  rescans ivs := (run_kept hK h hop ivs).2.2
  unchanged ivs e he hne := by
    have heq := ((run_kept hK h hop ivs).2.1 e he).resolve_left hne
    rw [heq.2]
    exact ⟨rfl, rfl, rfl⟩

end WalletOperation

namespace WalletFileRun

/-- Harmless operations keep the wallet. -/
theorem kept (hK : K.Streams) {w : Wallet}
    (h : WalletFileRun K (fun w op ↦ op.Harmless w) w) : w.Kept K := by
  induction h with
  | create hnew hview hcreate => exact Wallet.create_kept hK hnew hview hcreate
  | @step w w' op ivs failed rescan _ hop hrun hend ih =>
    have hkept := (WalletOperation.run_kept hK ih hop ivs).1
    rw [hrun] at hkept
    exact hkept hend

/-- In every run of harmless operations the wallet is intact, and the next one is sound. -/
theorem intact_of_harmless (hK : K.Streams) {w : Wallet}
    (h : WalletFileRun K (fun w op ↦ op.Harmless w) w) :
    w.Intact K ∧ ∀ op : WalletOperation K, op.Harmless w → op.Sound w :=
  ⟨(h.kept hK).intact, fun _ hop ↦ hop.sound hK (h.kept hK)⟩

end WalletFileRun

/-! ## An import that asks for nothing -/

/-- Keys are their own public keys, and nothing is encrypted. -/
def sampleFileCrypto : WalletFileCrypto where
  generateChacha8Key := fun _ ↦ 0
  chacha8 := fun _ _ data ↦ data
  secretKeyToPublicKey := fun sk ↦ if sk = 9 then none else some sk
  keyIsvalid := fun _ ↦ true

/-- The wallet with the spend key `2`, made at time 1000. -/
def sampleSource : Wallet.Source sampleFileCrypto :=
  .random 1000 ⟨1, 1, by decide, by decide⟩ ⟨2, 2, by decide, by decide⟩

/-- The wallet of the sample source. -/
def sampleWallet : Wallet :=
  (Wallet.create sampleFileCrypto "" sampleSource fun _ ↦ 0).toOption.getD {}

theorem sampleWallet_created :
    Wallet.create sampleFileCrypto "" sampleSource (fun _ ↦ 0) = .ok sampleWallet := by
  have hisOk : (Wallet.create sampleFileCrypto "" sampleSource fun _ ↦ 0).toOption.isSome = true :=
    by decide +kernel
  rw [sampleWallet]
  cases hcreate : Wallet.create sampleFileCrypto "" sampleSource fun _ ↦ 0 with
  | ok w => rfl
  | error e => rw [hcreate] at hisOk; cases hisOk

theorem WalletFileRun.sample {ok : Wallet → WalletOperation sampleFileCrypto → Prop} :
    WalletFileRun sampleFileCrypto ok sampleWallet :=
  @WalletFileRun.create sampleFileCrypto ok "" sampleSource (fun _ ↦ 0) _ _ rfl (by decide +kernel)
    sampleWallet_created

/-- The import of the new key `3`, made at time 500. -/
def sampleImport : WalletOperation sampleFileCrypto := .generateNewAddresses [3] 500 1000 []

/-- One more operation of a run. -/
theorem WalletFileRun.operate {K : WalletFileCrypto} {ok : Wallet → WalletOperation K → Prop}
    {w : Wallet} (h : WalletFileRun K ok w) (op : WalletOperation K) (hok : ok w op)
    (ivs : ℕ → ChachaIv) (hends : (op.run ivs w).1 ≠ some .diverged) :
    WalletFileRun K ok (op.run ivs w).2.2 :=
  h.step hok rfl hends

/-- The wallet after an operation whose random numbers are zero. -/
def sampleOperate (op : WalletOperation sampleFileCrypto) (w : Wallet) : Wallet :=
  (op.run (fun _ ↦ 0) w).2.2

/-- The sample wallet with a new key beside one that it has, both from before its time. -/
def sampleImported : Wallet := sampleOperate (.generateNewAddresses [2, 4] 500 1000 []) sampleWallet

/-- The wallet of the import, whose first output is later than its keys, under another password. -/
def sampleUsed : Wallet :=
  sampleOperate (.setPassword "x") (sampleOperate (.onFirstOutputFound 2000) sampleImported)

/-- A wallet that was created, imported keys, found an output and was given another password is
intact, and the import of a key that it has is sound. -/
theorem WalletFileRun.sampleWallet_intact :
    sampleUsed.records.get 4 = some ⟨4, 4, 2000⟩ ∧ sampleUsed.Intact sampleFileCrypto ∧
      (WalletOperation.generateNewAddresses [2] 500 1000 [] :
        WalletOperation sampleFileCrypto).Sound sampleUsed := by
  have himported : WalletFileRun sampleFileCrypto (fun w op ↦ op.Harmless w) sampleImported := by
    refine sample.operate _ ?_ _ (by decide +kernel)
    rw [WalletOperation.Harmless, if_pos (by decide +kernel)]
    intro _
    exact Or.inr ⟨2, by decide, by decide, 2, ⟨2, 2, 1000⟩, by decide, by decide +kernel⟩
  have hfound : WalletFileRun sampleFileCrypto (fun w op ↦ op.Harmless w)
      (sampleOperate (.onFirstOutputFound 2000) sampleImported) :=
    himported.operate (.onFirstOutputFound 2000) trivial _ (by decide +kernel)
  have hused : WalletFileRun sampleFileCrypto (fun w op ↦ op.Harmless w) sampleUsed :=
    hfound.operate (.setPassword "x") trivial _ (by decide +kernel)
  have hrun := intact_of_harmless (K := sampleFileCrypto) (fun _ _ _ ↦ rfl) hused
  refine ⟨by decide +kernel, hrun.1, hrun.2 _ ?_⟩
  rw [WalletOperation.Harmless, if_pos (by decide +kernel)]
  intro _
  exact Or.inr ⟨2, by decide, by decide, 2, ⟨2, 2, 2000⟩, by decide, by decide +kernel⟩

/-- The import of a new key from before the oldest timestamp leaves that timestamp as it was: the
wallet is not intact. -/
theorem WalletFileRun.not_intact :
    ¬ ∀ w, WalletFileRun sampleFileCrypto (fun _ _ ↦ True) w →
      w.Intact sampleFileCrypto ∧ ∀ op : WalletOperation sampleFileCrypto, op.Sound w := by
  intro h
  obtain ⟨failed, rescan, w, heq⟩ : ∃ failed rescan w,
      sampleImport.run (fun _ ↦ 0) sampleWallet = (failed, rescan, w) := ⟨_, _, _, rfl⟩
  have hfailed : (sampleImport.run (fun _ ↦ 0) sampleWallet).1 = none := by decide +kernel
  have hrecord : (sampleImport.run (fun _ ↦ 0) sampleWallet).2.2.records.get 3 =
      some ⟨3, 3, 500⟩ := by decide +kernel
  have holdest : (sampleImport.run (fun _ ↦ 0) sampleWallet).2.2.oldestTimestamp = 1000 := by
    decide +kernel
  rw [heq] at hfailed hrecord holdest
  cases hfailed
  have hrun : WalletFileRun sampleFileCrypto (fun _ _ ↦ True) w :=
    .step .sample trivial heq (by decide)
  obtain ⟨⟨-, hlower⟩, -⟩ := (h _ hrun).1
  have hle := hlower ⟨3, _, hrecord, rfl⟩
  rw [holdest] at hle
  exact absurd hle (by decide)

end Naza
