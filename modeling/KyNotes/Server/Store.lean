import KyNotes.Server.Containers

/-!
# The store: database, blob files, upload parts (`blobstore.go`, `object_routes.go`, `upload_routes.go`)

* `Temp.Finalize` (`tempFinalize`), `claimBlob` and `dropUnclaimed`: the three operations by which a digest gains or
  loses its file and its row.
* `usedBytes`, `userQuotaExceeded` and `quotaExceeded`: what an owner and a team are charged.
-/

namespace KyNotes

open Relational Check

/-- The blob directory. -/
abbrev Files := Digest → Option Bytes

/-- What the server keeps between two actions of its requests. -/
structure Store where
  db : DB
  files : Files
  /-- `tmp/<id>.part` of an upload session. -/
  parts : UploadId → Option Bytes
  clock : Time
  /-- The supply of identifiers. -/
  next : Nat

/-- The stored form of the current time. -/
def Store.now (s : Store) : Stamp := format s.clock

/-- A function changed at one place. -/
def assign {α β : Type} [DecidableEq α] (f : α → β) (a : α) (b : β) : α → β := fun x => if x = a then b else f x

@[simp] theorem assign_same {α β : Type} [DecidableEq α] (f : α → β) (a : α) (b : β) : assign f a b a = b := by
  simp [assign]

@[simp] theorem assign_ne {α β : Type} [DecidableEq α] (f : α → β) {a x : α} (b : β) (h : x ≠ a) :
    assign f a b x = f x := by
  simp [assign, h]

/-! ## Blobs -/

inductive FinalizeErr | mismatch | corrupt | missing
deriving DecidableEq, Repr

/-- `Temp.Finalize`. `hashed` is what the temporary file was hashed from, `held` what its path holds now. A file that is
already there is verified and kept; otherwise the temporary file is renamed. -/
def tempFinalize (cfg : Config) (files : Files) (hashed : Bytes) (held : Option Bytes) (expected : Option Digest) :
    Except FinalizeErr (Files × Digest) :=
  let d := cfg.sha256 hashed
  if expected ≠ none ∧ expected ≠ some d then .error .mismatch
  else match files d with
    | some old => if old.length = hashed.length ∧ cfg.sha256 old = d then .ok (files, d) else .error .corrupt
    | none =>
      match held with
      | some b => .ok (assign files d (some b), d)
      | none => .error .missing

/-- `claimBlob`: the row without its mark, refused when the file is gone. -/
def claimBlob (blobs : Table Blob.digest) (files : Files) (d : Digest) (size : Nat) :
    Except Err (Table Blob.digest) := do
  let t := (blobs.insertOrIgnore ⟨d, size, none⟩).update (fun b => b.digest = d) fun b =>
    { b with unreferencedSince := none }
  require ((files d).isSome) .internal
  pure t

/-- `dropUnclaimed`: the file goes unless a row claims the digest. -/
def dropUnclaimed (blobs : Table Blob.digest) (files : Files) (d : Digest) : Files :=
  if (blobs.get d).isSome then files else assign files d none

/-! ## Quota -/

/-- The containers an account owns. -/
def OwnedBy (k : KeyTables) (owner : UserId) (cid : ContainerId) : Prop :=
  ∃ c ∈ k.containers, c.id = cid ∧ c.ownerUserId = owner

instance (k : KeyTables) (owner : UserId) : DecidablePred (OwnedBy k owner) := fun cid =>
  inferInstanceAs (Decidable (∃ c ∈ k.containers, c.id = cid ∧ c.ownerUserId = owner))

/-- `b.digest IN (SELECT s.finalized_digest FROM upload_sessions s WHERE s.kind='preview' AND ...)`. -/
def PreviewIn (db : DB) (scope : ContainerId → Prop) (d : Digest) : Prop :=
  ∃ u ∈ db.uploadSessions, u.kind = .preview ∧ u.finalizedDigest = some d ∧
    (∃ c ∈ db.keys.containers, c.id = u.containerId ∧ c.deletedAt = none) ∧ scope u.containerId

instance (db : DB) (scope : ContainerId → Prop) [DecidablePred scope] : DecidablePred (PreviewIn db scope) := fun d =>
  inferInstanceAs (Decidable (∃ u ∈ db.uploadSessions, u.kind = .preview ∧ u.finalizedDigest = some d ∧
    (∃ c ∈ db.keys.containers, c.id = u.containerId ∧ c.deletedAt = none) ∧ scope u.containerId))

/-- A pending upload counts at its declared size until it expires. -/
def Reserves (now : Stamp) (skip : Option UploadId) (u : UploadSession) : Prop :=
  u.status = .pending ∧ now < u.expiresAt ∧ some u.id ≠ skip

instance (now : Stamp) (skip : Option UploadId) : DecidablePred (Reserves now skip) := fun u =>
  inferInstanceAs (Decidable (u.status = .pending ∧ now < u.expiresAt ∧ some u.id ≠ skip))

section Used

variable (db : DB) (scope : ContainerId → Prop) [DecidablePred scope]

/-- The stored part of `usedBytes`: every summand but the reservations. -/
def storedBytes : Nat :=
  db.pages.objectVersions.total (fun v => ∃ o ∈ db.pages.objects, o.id = v.objectId ∧ scope o.containerId)
    ObjectVersion.ciphertextBytes +
  db.pages.conflicts.total (fun c => scope c.containerId) Conflict.ciphertextBytes +
  db.pages.comments.total (fun c => c.deletedAt = none ∧ scope c.containerId) Comment.bodyBytes +
  db.pages.attachments.total (fun a => a.deletedAt = none ∧ scope a.containerId) Attachment.ciphertextBytes +
  db.blobs.total (fun b => PreviewIn db scope b.digest) Blob.sizeBytes

/-- The reservations of `usedBytes`. -/
def reservedBytes (now : Stamp) (skip : Option UploadId) : Nat :=
  db.uploadSessions.total (fun u => Reserves now skip u ∧ scope u.containerId) UploadSession.declaredBytes

/-- `usedBytes`. -/
def usedBytes (now : Stamp) (skip : Option UploadId) : Nat :=
  storedBytes db scope + reservedBytes db scope now skip

end Used

/-- The bytes of an account's live sealed share links. -/
def linkBytes (db : DB) (owner : UserId) (now : Stamp) : Nat :=
  db.sealedShareLinks.total (fun l => l.ownerUserId = owner ∧ l.revokedAt = none ∧ now < l.expiresAt)
    SealedShareLink.bytes

/-- An account's quota; `0` is none. -/
def quotaOf (cfg : Config) (u : User) : Nat := if u.quotaBytes = 0 then cfg.userQuotaBytes else u.quotaBytes

/-- `userQuotaExceeded`. -/
def userQuotaExceeded (cfg : Config) (db : DB) (now : Stamp) (owner : User) (skip : Option UploadId) (n : Nat) : Bool :=
  quotaOf cfg owner ≠ 0 ∧
    quotaOf cfg owner < usedBytes db (OwnedBy db.keys owner.id) now skip + linkBytes db owner.id now + n

/-- The team a container is charged to. -/
def teamOf (c : Container) : Option ContainerId := if c.kind = .team then some c.id else c.teamId

/-- `quotaExceeded`. -/
def quotaExceeded (cfg : Config) (db : DB) (now : Stamp) (cid : ContainerId) (skip : Option UploadId) (n : Nat) :
    Except Err Bool := do
  let c ← fetch (db.keys.containers.get cid) .internal
  let owner ← fetch (db.keys.users.get c.ownerUserId) .internal
  if userQuotaExceeded cfg db now owner skip n then pure true
  else match teamOf c with
    | none => pure false
    | some t => pure (cfg.teamQuotaBytes ≠ 0 ∧ cfg.teamQuotaBytes < usedBytes db (InScope db.keys t) now skip + n)

/-- The quota has room for `n` more bytes. -/
def checkQuota (cfg : Config) (db : DB) (now : Stamp) (cid : ContainerId) (skip : Option UploadId) (n : Nat) :
    Except Err Unit := do
  let exceeded ← quotaExceeded cfg db now cid skip n
  require (exceeded = false) .quota

/-! ## Answers -/

/-- What `commitReceipt` hashes. -/
structure Receipt where
  objectId : ObjectId
  version : Nat
  digest : Digest
  bytes : Nat
  generation : Nat
  baseVersion : Int
  changeSeq : Nat
deriving DecidableEq

/-- `commitReceipt` of a stored version. -/
def commitReceipt (v : ObjectVersion) : Receipt :=
  ⟨v.objectId, v.version, v.blobDigest, v.ciphertextBytes, v.keyGeneration, v.baseVersion, v.changeSeq⟩

inductive Answer
  | error (status : Nat) (code : String)
  | saved (version : Nat) (digest : Digest) (bytes : Nat) (receipt : Receipt)
  | conflict (currentVersion : Nat) (conflictId : ConflictId)
  | replayed (version : Nat) (resource : Nat) (receipt : Option Receipt)
  | commented (id : CommentId)
  | uploading (id : UploadId) (chunkBytes : Nat) (expiresAt : Stamp)
  | chunk (receivedBytes nextChunk : Nat)
  | chunkConflict (nextChunk : Nat)
  | preview (digest : Digest) (bytes : Nat)
  | attachment (id : AttachmentId) (digest : Digest) (bytes : Nat)
  | noContent
deriving DecidableEq

/-- The answer to a transaction's error. -/
def errorAnswer : Err → Answer
  | .quota => .error 413 "quota_exceeded"
  | .commentPageGone => .error 404 "not_found"
  | .storageFull => .error 507 "storage_full"
  | .membershipExists => .error 409 "already_exists"
  | .deleteReauth => .error 403 "forbidden"
  | e => .error (teamKeyError e).1 (teamKeyError e).2.1

end KyNotes
