import KyNotes.Server.Objects

/-!
# Chunked uploads (`upload_routes.go`)

An upload session is a row and a part file. The chunks of one session are serialized by `lockUpload`; start, cancel
and finalize take no lock. `patchRead` is what a chunk decides under the lock, `patchAppend` what it does to the part
file, `patchCount` its row update; a crash may fall between any two of them.

Finalize reads the session, checks the quota, hashes the part file, moves it to its digest, and only then opens the
transaction (`finalizeTx`), which repeats the checks on the uploader but neither the quota nor the session's status.
-/

namespace KyNotes

open Relational Check

/-- `uploadMaxLifetime`. -/
def uploadMaxLifetime : Time := day

/-- `uploadLive`. -/
def uploadLive (u : UploadSession) (clock : Time) : Bool :=
  u.status = .pending ∧ clock ≤ parseTime u.expiresAt ∧ clock ≤ parseTime u.createdAt + uploadMaxLifetime

/-- `UPDATE upload_sessions SET status='failed' WHERE id=?`. -/
def failSession (db : DB) (id : UploadId) : DB :=
  { db with uploadSessions := db.uploadSessions.update (fun u => u.id = id) fun u => { u with status := .failed } }

/-! ## Start -/

/-- `POST /containers/{id}/uploads`. -/
structure StartReq where
  userId : UserId
  containerId : ContainerId
  scheme : Bool
  kind : UploadKind
  declaredBytes : Nat
  expectedDigest : Option Digest
deriving DecidableEq

/-- The checks before the transaction; the quota is not checked again. -/
def startAdmit (cfg : Config) (db : DB) (now : Stamp) (r : StartReq) : Except Answer Unit := do
  let role ← fetch (liveRole db.keys r.containerId r.userId) (.error 404 "not_found")
  require (canEdit role) (.error 403 "forbidden")
  let _ ← (checkContainerKeyed db.keys r.containerId r.userId r.scheme).mapError errorAnswer
  require (r.declaredBytes ≤ cfg.attachmentMaxBytes) (.error 413 "payload_too_large")
  (checkQuota cfg db now r.containerId none r.declaredBytes).mapError errorAnswer

/-- A new session's row. -/
def newSession (cfg : Config) (clock : Time) (r : StartReq) (id : UploadId) : UploadSession :=
  { id := id, userId := r.userId, containerId := r.containerId, kind := r.kind, declaredBytes := r.declaredBytes,
    chunkBytes := cfg.chunkBytes, expectedDigest := r.expectedDigest, receivedBytes := 0, nextChunk := 0,
    status := .pending, createdAt := format clock, updatedAt := format clock,
    expiresAt := format (clock + cfg.uploadTTL), finalizedDigest := none }

/-- The transaction. -/
def startTx (cfg : Config) (s : Store) (r : StartReq) (id : UploadId) : Except Err DB := do
  checkUploader s.db.keys r.containerId r.userId r.scheme
  let t ← fetch (s.db.uploadSessions.insert (newSession cfg s.clock r id)) .internal
  pure { s.db with uploadSessions := t }

/-! ## Chunks -/

/-- `PATCH /uploads/{id}`. -/
structure PatchReq where
  userId : UserId
  id : UploadId
  scheme : Bool
  index : Nat
  body : Bytes
deriving DecidableEq

/-- The session of a caller. -/
def ownSession (db : DB) (userId : UserId) (id : UploadId) : Option UploadSession :=
  (db.uploadSessions.get id).filter fun u => u.userId = userId

/-- Before the lock: the body is read, at most one chunk long. -/
def patchAdmit (db : DB) (r : PatchReq) : Except Answer Unit := do
  let u ← fetch (ownSession db r.userId r.id) (.error 404 "not_found")
  (checkUploader db.keys u.containerId r.userId r.scheme).mapError errorAnswer
  require (r.body.length ≤ u.chunkBytes) (.error 413 "payload_too_large")

/-- What a chunk does under the lock. -/
inductive PatchPlan
  | answer (a : Answer)
  /-- The session fails and its part file goes. -/
  | doom
  /-- Append to the part file, which holds `received` counted bytes. -/
  | append (received : Nat)
deriving DecidableEq

/-- `expected` bytes of a part file at the place of chunk `idx` are the body. -/
def resent (u : UploadSession) (part : Bytes) (idx : Nat) (body : Bytes) : Bool :=
  let expected := min u.chunkBytes (u.declaredBytes - idx * u.chunkBytes)
  body = (part.drop (idx * u.chunkBytes)).take expected ∧ body.length = expected

/-- A body of this length is the next chunk of the session. -/
def fits (u : UploadSession) (n : Nat) : Bool :=
  n ≠ 0 ∧ u.receivedBytes + n ≤ u.declaredBytes ∧ (u.receivedBytes + n < u.declaredBytes → n = u.chunkBytes)

/-- The decision under the lock. -/
def patchRead (s : Store) (r : PatchReq) : PatchPlan :=
  match s.db.uploadSessions.get r.id with
  | none => .answer (.error 404 "not_found")
  | some u =>
    match checkUploader s.db.keys u.containerId r.userId r.scheme with
    | .error e => .answer (errorAnswer e)
    | .ok _ =>
      if uploadLive u s.clock = false then .answer (.error 410 "gone")
      else if r.index < u.nextChunk then
        if r.index + 1 ≠ u.nextChunk then .answer (.chunkConflict u.nextChunk)
        else match s.parts r.id with
          | none => .answer (.error 500 "internal")
          | some part =>
            if resent u part r.index r.body then .answer (.chunk u.receivedBytes u.nextChunk)
            else .answer (.chunkConflict u.nextChunk)
      else if r.index ≠ u.nextChunk then .answer (.chunkConflict u.nextChunk)
      else if fits u r.body.length then .append u.receivedBytes
      else .doom

/-- The part file after an append of `body` behind `received` counted bytes: uncounted bytes are dropped first. -/
def patchAppend (part : Option Bytes) (received : Nat) (body : Bytes) : Option Bytes :=
  match part with
  | none => none
  | some b => if b.length < received then none else some (b.take received ++ body)

/-- The row update of an appended chunk. -/
def patchCount (cfg : Config) (s : Store) (id : UploadId) (n : Nat) : DB :=
  { s.db with
    uploadSessions := s.db.uploadSessions.update (fun u => u.id = id) fun u =>
      { u with receivedBytes := u.receivedBytes + n, nextChunk := u.nextChunk + 1, updatedAt := s.now,
               expiresAt := format (s.clock + cfg.uploadTTL) } }

/-! ## Cancel -/

/-- The row update of `DELETE /uploads/{id}`, whatever the session's status. -/
def cancelSession (db : DB) (id : UploadId) (now : Stamp) : DB :=
  { db with
    uploadSessions := db.uploadSessions.update (fun u => u.id = id) fun u =>
      { u with status := .failed, updatedAt := now } }

/-! ## Finalize -/

/-- `POST /uploads/{id}/finalize`. -/
structure FinalizeReq where
  userId : UserId
  id : UploadId
  scheme : Bool
  generation : Nat
  /-- The decoded length of the metadata, `none` when it does not decode. -/
  metadataBytes : Option Nat
  previewUploadId : Option UploadId
deriving DecidableEq

/-- The answer of a session that is finalized already. -/
def finalizeRetry (db : DB) (u : UploadSession) : Option Answer :=
  match u.status, u.finalizedDigest with
  | .finalized, some d =>
    match u.kind with
    | .preview => some (.preview d u.receivedBytes)
    | .attachment =>
      (db.pages.attachments.rows.find? fun a => a.containerId = u.containerId ∧ a.blobDigest = d ∧ a.deletedAt = none).map
        fun a => .attachment a.id d u.receivedBytes
  | _, _ => none

/-- The session as finalize reads it: live, and every declared byte counted. -/
def finalizeRead (s : Store) (r : FinalizeReq) : Except Answer UploadSession := do
  let u ← fetch (ownSession s.db r.userId r.id) (.error 404 "not_found")
  (checkUploader s.db.keys u.containerId r.userId r.scheme).mapError errorAnswer
  match finalizeRetry s.db u with
  | some a => .error a
  | none => do
    require (uploadLive u s.clock = true) (.error 410 "gone")
    require (u.receivedBytes = u.declaredBytes) (.error 422 "digest_mismatch")
    pure u

/-- The digest of a finalized preview of the same user and container. -/
def citedPreview (db : DB) (userId : UserId) (cid : ContainerId) (id : UploadId) : Option Digest :=
  ((db.uploadSessions.get id).filter fun p =>
    p.userId = userId ∧ p.containerId = cid ∧ p.kind = .preview ∧ p.status = .finalized).bind
    UploadSession.finalizedDigest

/-- The checks of an attachment's finalize after the quota check. -/
def finalizeAdmit (db : DB) (r : FinalizeReq) (u : UploadSession) : Except Answer Unit :=
  match u.kind with
  | .preview => .ok ()
  | .attachment => do
    (checkWriteGate db.keys u.containerId r.userId r.generation r.scheme).mapError errorAnswer
    let n ← fetch r.metadataBytes (.error 400 "invalid_request")
    require (n ≤ 4096) (.error 400 "invalid_request")
    require (∀ p, r.previewUploadId = some p → (citedPreview db r.userId u.containerId p).isSome)
      (.error 404 "not_found")

/-- The digest an attachment names as its preview. -/
def previewOf (db : DB) (r : FinalizeReq) (u : UploadSession) : Option Digest :=
  r.previewUploadId.bind (citedPreview db r.userId u.containerId)

/-- `UPDATE upload_sessions SET status='finalized',... WHERE id=?`. -/
def finishSession (t : Table UploadSession.id) (id : UploadId) (d : Digest) (now : Stamp) : Table UploadSession.id :=
  t.update (fun u => u.id = id) fun u =>
    { u with status := .finalized, finalizedDigest := some d, updatedAt := now }

/-- The attachment of a container with a digest: `idx_attachments_container_digest` allows one. -/
def attachmentOf (p : PageTables) (cid : ContainerId) (d : Digest) : Option Attachment :=
  p.attachments.rows.find? fun a => a.containerId = cid ∧ a.blobDigest = d

/-- The attachment row of a finalize: a new one, or the old one of the same bytes, live again. The old one keeps its
`change_seq`, its generation and its preview. -/
def placeAttachment (p : PageTables) (cid : ContainerId) (d : Digest) (preview : Option Digest) (size generation : Nat)
    (id : AttachmentId) : Except Refusal (PageTables × AttachmentId) :=
  let p₁ := bumpSeq p cid
  match attachmentOf p cid d with
  | some a =>
    .ok ({ p₁ with attachments := p₁.attachments.update (fun x => x.id = a.id) fun x => { x with deletedAt := none } },
      a.id)
  | none => do
    let t ← fetch (p₁.attachments.insert ⟨id, cid, d, preview, size, generation, p₁.changeSeq cid, none⟩) aborted
    pure ({ p₁ with attachments := t }, id)

/-- The transaction of a preview's finalize. -/
def finalizePreviewTx (s : Store) (r : FinalizeReq) (u : UploadSession) (d : Digest) (size : Nat) :
    Except Refusal (DB × Answer) := do
  (checkUploader s.db.keys u.containerId r.userId r.scheme).mapError refused
  let blobs ← (claimBlob s.db.blobs s.files d size).mapError fun _ => aborted
  pure ({ s.db with blobs := blobs, uploadSessions := finishSession s.db.uploadSessions r.id d s.now },
    .preview d size)

/-- The transaction of an attachment's finalize. -/
def finalizeAttachmentTx (s : Store) (r : FinalizeReq) (u : UploadSession) (d : Digest) (size : Nat)
    (preview : Option Digest) (id : AttachmentId) : Except Refusal (DB × Answer) := do
  (checkWriteGate s.db.keys u.containerId r.userId r.generation r.scheme).mapError refused
  (checkUploader s.db.keys u.containerId r.userId r.scheme).mapError refused
  let blobs ← (claimBlob s.db.blobs s.files d size).mapError fun _ => aborted
  let (pages, att) ← placeAttachment s.db.pages u.containerId d preview size r.generation id
  pure ({ s.db with
      pages := pages, blobs := blobs, uploadSessions := finishSession s.db.uploadSessions r.id d s.now },
    .attachment att d size)

/-- The transaction of finalize. -/
def finalizeTx (s : Store) (r : FinalizeReq) (u : UploadSession) (d : Digest) (size : Nat) (preview : Option Digest)
    (id : AttachmentId) : Except Refusal (DB × Answer) :=
  match u.kind with
  | .preview => finalizePreviewTx s r u d size
  | .attachment => finalizeAttachmentTx s r u d size preview id

end KyNotes
