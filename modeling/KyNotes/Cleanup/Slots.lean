import KyNotes.Lib.Utf8
import KyNotes.Lib.Utf16
import KyNotes.Server.Specs

/-!
# Cleanup slots (`internal/storage/cleanup_slots.go`, `migrations/0031_cleanup_slots.sql`)

A comment and a sealed share link reserve the audit record of their own deletion: a slot of a fixed size that holds
`null` until it is filled, once. The payload of a slot is its number of bytes and the record that its JSON is of;
`encoding/json` is exact on records but for the bytes of a string that are no UTF-8, in whose place it writes U+FFFD.

An identifier that `ids.Mint` made has 30 bytes, so that the `MAX(30, ...)` over the users is 30. The row paddings, which
keep SQLite's pages from growing, are in `Cleanup/Rows.lean`.
-/

namespace KyNotes.Cleanup

open Relational Check

/-- `PRAGMA encoding`. -/
inductive Encoding | utf8 | utf16le | utf16be
deriving DecidableEq

/-- The bytes of an ASCII character. -/
def Encoding.unit : Encoding → Nat
  | .utf8 => 1
  | .utf16le | .utf16be => 2

/-- The bytes of a character. -/
def Encoding.bytes (e : Encoding) (c : Char) : Nat :=
  match e with
  | .utf8 => c.utf8Size
  | .utf16le | .utf16be => 2 * (Utf16.units c).length

/-! ## Records -/

/-- `cleanupRecord`, as it reads back. -/
structure CleanupRecord where
  actor : UserId
  request : List Char
  time : Stamp
deriving DecidableEq

/-- The ASCII characters that `json.Marshal` escapes a character to; `none` if it does not. -/
def escaped : Option Char → Option Nat
  | none => some 6
  | some c =>
    if c ∈ ['"', '\\', '\x08', '\x0c', '\n', '\r', '\t'] then some 2
    else if c.toNat < 0x20 ∨ c ∈ ['<', '>', '&', '\u2028', '\u2029'] then some 6
    else none

/-- The bytes that a character takes in JSON. -/
def escapedBytes (e : Encoding) (r : Option Char) : Nat :=
  match escaped r with
  | some n => e.unit * n
  | none => r.elim 0 e.bytes

/-- `len` of `{"actor":"","request":"","at":"2000-01-01T00:00:00Z"}`. -/
def emptyBytes : Nat := 53

/-- `len` of an ID. -/
def idBytes : Nat := 30

/-- `MaxAuditRequestIDBytes`. -/
def maxAuditRequestIDBytes : Nat := 128

/-- The bytes of a record. -/
def recordBytes (e : Encoding) (request : Bytes) : Nat :=
  e.unit * (emptyBytes + idBytes) + ((Utf8.runes request).map (escapedBytes e)).sum

/-- `cleanupSlotBytes`: any input byte needs at most six JSON bytes. -/
def cleanupSlotBytes (e : Encoding) : Nat :=
  let n := emptyBytes + 6 * (idBytes + maxAuditRequestIDBytes)
  (n + 63) / 64 * 64 * e.unit

/-- The first second of the year 10000; a time before it is 20 bytes long. -/
def year10000 : Stamp := 253402300800

/-! ## Slots -/

inductive SlotKind | comment | sealedShareLink
deriving DecidableEq

/-- A kind and an ID, whose prefix tells the kind. -/
structure Source where
  kind : SlotKind
  id : Nat
deriving DecidableEq

/-- The payload: `null` while `record` is none. -/
structure Slot where
  source : Source
  auditId : Nat
  /-- `none` for a link. -/
  containerId : Option ContainerId
  bytes : Nat
  record : Option CleanupRecord
deriving DecidableEq

abbrev Slots := Table Slot.source

/-- `ReserveCleanupAuditTx`. -/
def reserve (e : Encoding) (t : Slots) (source : Source) (containerId : Option ContainerId) (auditId : Nat) :
    Except Err Slots :=
  fetch (t.insert ⟨source, auditId, containerId, cleanupSlotBytes e, none⟩) .internal

/-- `FillCleanupAuditTx`. The update passes the trigger: the slot holds `null`, and keeps its keys and its size. -/
def fill (e : Encoding) (t : Slots) (source : Source) (actor : UserId) (request : Bytes) (now : Stamp) :
    Except Err Slots := do
  require (request.length ≤ maxAuditRequestIDBytes ∧ now < year10000) .internal
  let s ← fetch (t.get source) .internal
  require (s.record = none) .internal
  let n := recordBytes e request
  -- padCleanupJSON
  require (n ≤ s.bytes ∧ (s.bytes - n) % e.unit = 0) .internal
  pure (t.update (fun s => s.source = source) fun s => { s with record := some ⟨actor, Utf8.text request, now⟩ })

/-- A source is live while its row is there and neither deleted nor revoked. -/
def Live (db : DB) (source : Source) : Prop :=
  match source.kind with
  | .comment => ∃ c ∈ db.pages.comments, c.id = source.id ∧ c.deletedAt = none
  | .sealedShareLink => ∃ l ∈ db.sealedShareLinks, l.id = source.id ∧ l.revokedAt = none

/-- A source has a row. -/
def HasRow (db : DB) (source : Source) : Prop :=
  match source.kind with
  | .comment => ∃ c ∈ db.pages.comments, c.id = source.id
  | .sealedShareLink => ∃ l ∈ db.sealedShareLinks, l.id = source.id

instance (db : DB) : DecidablePred (Live db)
  | ⟨.comment, id⟩ => inferInstanceAs (Decidable (∃ c ∈ db.pages.comments, c.id = id ∧ c.deletedAt = none))
  | ⟨.sealedShareLink, id⟩ => inferInstanceAs (Decidable (∃ l ∈ db.sealedShareLinks, l.id = id ∧ l.revokedAt = none))

instance (db : DB) : DecidablePred (HasRow db)
  | ⟨.comment, id⟩ => inferInstanceAs (Decidable (∃ c ∈ db.pages.comments, c.id = id))
  | ⟨.sealedShareLink, id⟩ => inferInstanceAs (Decidable (∃ l ∈ db.sealedShareLinks, l.id = id))

/-- `cleanup_comment_pending` and `cleanup_link_pending`: the slot of a deleted row goes while it holds `null`. -/
def dropPending (t : Slots) (old new : DB) : Slots :=
  t.delete fun s => s.record = none ∧ HasRow old s.source ∧ ¬HasRow new s.source

/-! ## The history -/

/-- A row of `audit_events` or of `audit_history`. -/
structure AuditEvent where
  id : Nat
  userId : Option UserId
  event : String
  containerId : Option ContainerId
  objectId : Option Nat
  time : Stamp
  outcome : String
  actorUserId : Option UserId
  actorDeviceId : Option DeviceId
  requestId : List Char
  reasonCode : String
deriving DecidableEq

def SlotKind.event : SlotKind → String
  | .comment => "comment.delete"
  | .sealedShareLink => "share_link.revoke"

/-- The row of a filled slot in `audit_history`. -/
def Slot.history (s : Slot) : Option AuditEvent :=
  s.record.map fun r =>
    { id := s.auditId, userId := some r.actor, event := s.source.kind.event, containerId := s.containerId,
      objectId := some s.source.id, time := r.time, outcome := "success", actorUserId := some r.actor,
      actorDeviceId := none, requestId := r.request, reasonCode := "" }

/-- `audit_history`. -/
def auditHistory (events : List AuditEvent) (t : Slots) : List AuditEvent := events ++ t.rows.filterMap Slot.history

/-! ## Verification -/

/-- The checks of one slot. -/
def Slot.Sound (s : Slot) : Prop :=
  (s.bytes ≠ 0 ∧ s.bytes % 64 = 0) ∧
    ∀ r, s.record = some r → Utf8.size r.request ≤ maxAuditRequestIDBytes ∧ r.time < year10000

instance : DecidablePred Slot.Sound := fun s =>
  match h : s.record with
  | none => decidable_of_iff (s.bytes ≠ 0 ∧ s.bytes % 64 = 0) ⟨fun hb => ⟨hb, fun r hr => by rw [h] at hr; cases hr⟩,
      And.left⟩
  | some r =>
    decidable_of_iff ((s.bytes ≠ 0 ∧ s.bytes % 64 = 0) ∧ Utf8.size r.request ≤ maxAuditRequestIDBytes ∧ r.time < year10000)
      ⟨fun ⟨hb, hr⟩ => ⟨hb, fun r' hr' => by rw [h] at hr'; cases hr'; exact hr⟩, fun ⟨hb, hr⟩ => ⟨hb, hr r h⟩⟩

/-- A source has a slot that holds `null`. -/
def Pending (t : Slots) (source : Source) : Prop := ∃ s ∈ t, s.source = source ∧ s.record = none

instance (t : Slots) : DecidablePred (Pending t) := fun source =>
  inferInstanceAs (Decidable (∃ s ∈ t, s.source = source ∧ s.record = none))

/-- `VerifyCleanupReservations`. -/
def verifyCleanupReservations (db : DB) (t : Slots) : Bool :=
  (∀ s ∈ t, s.Sound) ∧
  (∀ c ∈ db.pages.comments, c.deletedAt = none → Pending t ⟨.comment, c.id⟩) ∧
  ∀ l ∈ db.sealedShareLinks, l.revokedAt = none → Pending t ⟨.sealedShareLink, l.id⟩

/-! ## What the transactions do -/

section Specs

variable {e : Encoding} {t t' : Slots} {source : Source} {actor : UserId} {request : Bytes} {now : Stamp} {s : Slot}

theorem escaped_le {r : Option Char} {n : Nat} (h : escaped r = some n) : n ≤ 6 := by
  unfold escaped at h
  split at h
  · cases h; decide
  · split at h
    · cases h; decide
    · split at h <;> cases h
      decide

theorem units_length_le (c : Char) : (Utf16.units c).length ≤ 2 := by
  unfold Utf16.units
  split
  · exact Nat.le_succ _
  · exact Nat.le_refl _

theorem Encoding.bytes_le (e : Encoding) (c : Char) : e.bytes c ≤ 6 * e.unit * c.utf8Size := by
  have hu := units_length_le c
  have hc := c.utf8Size_pos
  cases e <;> simp only [Encoding.bytes, Encoding.unit] <;> omega

/-- Any input byte needs at most six JSON characters. -/
theorem escapedBytes_le (e : Encoding) (r : Option Char) : escapedBytes e r ≤ 6 * e.unit * Utf8.width r := by
  unfold escapedBytes
  split
  · rename_i n hn
    have hw : 1 ≤ Utf8.width r := by
      cases r with
      | none => exact Nat.le_refl _
      | some c => exact c.utf8Size_pos
    calc e.unit * n ≤ e.unit * 6 := Nat.mul_le_mul_left _ (escaped_le hn)
      _ = 6 * e.unit := Nat.mul_comm ..
      _ ≤ 6 * e.unit * Utf8.width r := Nat.le_mul_of_pos_right _ hw
  · cases r with
    | none => exact Nat.zero_le _
    | some c => exact e.bytes_le c

theorem unit_dvd_escapedBytes (e : Encoding) (r : Option Char) : e.unit ∣ escapedBytes e r := by
  unfold escapedBytes
  split
  · exact Nat.dvd_mul_right ..
  · cases r with
    | none => exact Nat.dvd_zero _
    | some c =>
      cases e with
      | utf8 => exact Nat.one_dvd _
      | utf16le | utf16be => exact Nat.dvd_mul_right ..

/-- A record of a request ID of at most 128 bytes fits its slot, whatever the bytes are. -/
theorem recordBytes_le (e : Encoding) (h : request.length ≤ maxAuditRequestIDBytes) :
    recordBytes e request ≤ cleanupSlotBytes e := by
  have hr := Utf8.sum_runes_le (escapedBytes_le e) request
  have hl : 6 * e.unit * request.length ≤ 6 * e.unit * maxAuditRequestIDBytes := Nat.mul_le_mul_left _ h
  simp only [recordBytes, cleanupSlotBytes, emptyBytes, idBytes, maxAuditRequestIDBytes] at hl ⊢
  cases e <;> simp only [Encoding.unit] at hr hl ⊢ <;> omega

theorem unit_dvd_recordBytes (e : Encoding) (request : Bytes) : e.unit ∣ recordBytes e request := by
  apply Nat.dvd_add (Nat.dvd_mul_right ..)
  induction Utf8.runes request with
  | nil => exact Nat.dvd_zero _
  | cons r rs ih => exact Nat.dvd_add (unit_dvd_escapedBytes e r) ih

/-- The new slot holds `null`. -/
def newSlot (e : Encoding) (source : Source) (containerId : Option ContainerId) (auditId : Nat) : Slot :=
  ⟨source, auditId, containerId, cleanupSlotBytes e, none⟩

/-- A slot with its record. -/
def Slot.filled (s : Slot) (actor : UserId) (request : Bytes) (now : Stamp) : Slot :=
  { s with record := some ⟨actor, Utf8.text request, now⟩ }

theorem reserve_ok {containerId : Option ContainerId} {auditId : Nat} :
    reserve e t source containerId auditId = .ok t' ↔ t.insert (newSlot e source containerId auditId) = some t' := by
  rw [reserve, fetch_ok]
  rfl

/-- A fill finds the slot pending, and changes nothing but its record. -/
theorem fill_ok (h : fill e t source actor request now = .ok t') :
    request.length ≤ maxAuditRequestIDBytes ∧ now < year10000 ∧ ∃ s, t.get source = some s ∧ s.record = none ∧
      t' = t.update (fun s => s.source = source) fun s => s.filled actor request now := by
  simp only [fill, bind_ok, require_ok, fetch_ok, pure_ok] at h
  obtain ⟨_, ⟨hl, hn⟩, s, hs, _, hr, _, -, rfl⟩ := h
  exact ⟨hl, hn, s, hs, hr, rfl⟩

/-- The fill of a pending slot never fails before the year 10000. -/
theorem fill_total (actor : UserId) (hl : request.length ≤ maxAuditRequestIDBytes) (hn : now < year10000) (hs : t.get source = some s)
    (hr : s.record = none) (hb : s.bytes = cleanupSlotBytes e) :
    fill e t source actor request now =
      .ok (t.update (fun s => s.source = source) fun s => s.filled actor request now) := by
  have hle := recordBytes_le e hl
  have hd : (cleanupSlotBytes e - recordBytes e request) % e.unit = 0 :=
    Nat.mod_eq_zero_of_dvd (Nat.dvd_sub (Nat.dvd_mul_left ..) (unit_dvd_recordBytes e request))
  simp only [fill, bind_ok, require_ok, fetch_ok, pure_ok]
  exact ⟨(), ⟨hl, hn⟩, s, hs, (), hr, (), ⟨hb ▸ hle, hb ▸ hd⟩, rfl⟩

theorem mem_dropPending {old new : DB} :
    s ∈ dropPending t old new ↔ s ∈ t ∧ ¬(s.record = none ∧ HasRow old s.source ∧ ¬HasRow new s.source) :=
  Table.mem_delete

theorem pending_iff : Pending t source ↔ ∃ s, t.get source = some s ∧ s.record = none := by
  constructor
  · rintro ⟨s, hs, rfl, hr⟩
    exact ⟨s, Table.get_of_mem hs, hr⟩
  · rintro ⟨s, hs, hr⟩
    exact ⟨s, Table.get_mem hs, Table.get_key hs, hr⟩

theorem Live.hasRow {db : DB} (h : Live db source) : HasRow db source := by
  obtain ⟨kind, id⟩ := source
  cases kind with
  | comment =>
    obtain ⟨c, hc, hid, -⟩ := h
    exact ⟨c, hc, hid⟩
  | sealedShareLink =>
    obtain ⟨l, hl, hid, -⟩ := h
    exact ⟨l, hl, hid⟩

end Specs

end KyNotes.Cleanup
