import KyNotes.Server.Uploads

/-!
# Garbage collection (`gc.go`)

The statements of one pass of `RunGC`, in its order; `now` is the time at which the pass began. The sessions to expire
and the digests to sweep are selected first and handled one by one, so each list may be stale when it is used.
`sweepBlob` checks its digest again inside its transaction.
-/

namespace KyNotes

open Relational

/-- The first transaction: the attachments of deleted containers are tombstoned, without a new `change_seq`. -/
def tombstoneAttachments (db : DB) : DB :=
  let deletedAt := fun cid => (db.keys.containers.get cid).bind Container.deletedAt
  { db with
    pages := { db.pages with
      attachmentRefs := db.pages.attachmentRefs.delete fun r =>
        ∃ a ∈ db.pages.attachments, a.id = r.attachmentId ∧ deletedAt a.containerId ≠ none
      attachments := db.pages.attachments.update (fun a => a.deletedAt = none ∧ deletedAt a.containerId ≠ none) fun a =>
        { a with deletedAt := deletedAt a.containerId } } }

/-- The sessions to expire: pending past their expiry, or failed and never finalized. -/
def expirable (db : DB) (now : Stamp) : List UploadId :=
  (db.uploadSessions.rows.filter fun u =>
    (u.status = .pending ∧ u.expiresAt < now) ∨ (u.status = .failed ∧ u.finalizedDigest = none)).map UploadSession.id

/-- `UPDATE upload_sessions SET status='expired' WHERE id=?`, whatever the status is by now. -/
def expireSession (db : DB) (id : UploadId) (now : Stamp) : DB :=
  { db with
    uploadSessions := db.uploadSessions.update (fun u => u.id = id) fun u =>
      { u with status := .expired, updatedAt := now } }

/-- `now.Add(-24*time.Hour)`, as stored. -/
def dayBefore (now : Time) : Stamp := format (now - day)

def purgeUploads (db : DB) (now : Time) : DB :=
  { db with uploadSessions := db.uploadSessions.delete fun u => u.status = .expired ∧ u.updatedAt < dayBefore now }

def purgeKeys (db : DB) (now : Time) : DB :=
  { db with
    pages := { db.pages with
      idempotencyKeys := db.pages.idempotencyKeys.delete fun i => i.createdAt < dayBefore now } }

/-- An expired invitation can never be accepted; its envelopes go. -/
def purgeEnvelopes (k : KeyTables) (now : Stamp) : KeyTables :=
  { k with
    invitationEnvelopes := k.invitationEnvelopes.delete fun e =>
      ∃ i ∈ k.invitations, i.id = e.invitationId ∧ i.status = .pending ∧ i.expiresAt ≤ now }

def purgeLinks (db : DB) (now : Stamp) : DB :=
  { db with sealedShareLinks := db.sealedShareLinks.delete fun l => l.expiresAt ≤ now ∨ l.revokedAt ≠ none }

/-! ## Blobs -/

/-- The negation of `unreferenced`: a version, an open conflict, or a live or linked attachment names the digest. -/
def Referenced (p : PageTables) (d : Digest) : Prop :=
  (∃ v ∈ p.objectVersions, v.blobDigest = d) ∨ (∃ c ∈ p.conflicts, c.blobDigest = d ∧ c.resolvedAt = none) ∨
  ∃ a ∈ p.attachments, (a.blobDigest = d ∨ a.previewDigest = some d) ∧
    (a.deletedAt = none ∨ ∃ r ∈ p.attachmentRefs, r.attachmentId = a.id)

instance (p : PageTables) : DecidablePred (Referenced p) := fun d =>
  inferInstanceAs (Decidable ((∃ v ∈ p.objectVersions, v.blobDigest = d) ∨
    (∃ c ∈ p.conflicts, c.blobDigest = d ∧ c.resolvedAt = none) ∨
    ∃ a ∈ p.attachments, (a.blobDigest = d ∨ a.previewDigest = some d) ∧
      (a.deletedAt = none ∨ ∃ r ∈ p.attachmentRefs, r.attachmentId = a.id)))

/-- The row may be swept: marked before the cut, and unreferenced. -/
def Sweepable (p : PageTables) (cut : Stamp) (b : Blob) : Prop :=
  (∃ t, b.unreferencedSince = some t ∧ t < cut) ∧ ¬Referenced p b.digest

instance (p : PageTables) (cut : Stamp) : DecidablePred (Sweepable p cut) := fun b =>
  match h : b.unreferencedSince with
  | none => .isFalse (by rintro ⟨⟨t, ht, _⟩, _⟩; rw [h] at ht; cases ht)
  | some t =>
    decidable_of_iff (t < cut ∧ ¬Referenced p b.digest) ⟨fun ⟨hc, hr⟩ => ⟨⟨t, h, hc⟩, hr⟩, by
      rintro ⟨⟨t', ht, hc⟩, hr⟩
      rw [h] at ht
      cases ht
      exact ⟨hc, hr⟩⟩

/-- The digests a pass will try to sweep. -/
def sweepList (db : DB) (cut : Stamp) : List Digest :=
  (db.blobs.rows.filter fun b => Sweepable db.pages cut b).map Blob.digest

/-- `sweepBlob` may go on: the row is there and may be swept. -/
def CanSweep (db : DB) (cut : Stamp) (d : Digest) : Prop := ∃ b ∈ db.blobs, b.digest = d ∧ Sweepable db.pages cut b

instance (db : DB) (cut : Stamp) (d : Digest) : Decidable (CanSweep db cut d) :=
  inferInstanceAs (Decidable (∃ b ∈ db.blobs, b.digest = d ∧ Sweepable db.pages cut b))

/-- The rows that `sweepBlob` deletes; a deleted attachment takes its links along. -/
def sweepRows (db : DB) (d : Digest) : DB :=
  let gone := fun a : Attachment => a.blobDigest = d ∧ a.deletedAt ≠ none
  { db with
    pages := { db.pages with
      attachments := db.pages.attachments.delete gone
      attachmentRefs := db.pages.attachmentRefs.delete fun r => ∃ a ∈ db.pages.attachments, a.id = r.attachmentId ∧ gone a
      conflicts := db.pages.conflicts.delete fun c => c.blobDigest = d ∧ c.resolvedAt ≠ none }
    blobs := db.blobs.delete fun b => b.digest = d }

/-- `UPDATE blobs SET unreferenced_since=''` on what is referenced again. -/
def unmarkBlobs (db : DB) : DB :=
  { db with
    blobs := db.blobs.update (fun b => b.unreferencedSince ≠ none ∧ Referenced db.pages b.digest) fun b =>
      { b with unreferencedSince := none } }

/-- `UPDATE blobs SET unreferenced_since=now` on what is unreferenced and not marked. -/
def markBlobs (db : DB) (now : Stamp) : DB :=
  { db with
    blobs := db.blobs.update (fun b => b.unreferencedSince = none ∧ ¬Referenced db.pages b.digest) fun b =>
      { b with unreferencedSince := some now } }

end KyNotes
