import KyNotes.Lib.Table

/-!
# The database and its rows

The rows of `internal/storage/migrations`, with the columns that the modelled handlers read or write. An empty string
that stands for "never" (`deleted_at=''`, `revoked_at=''`, `team_id=''`) is `none`. Two columns are kept apart from
their row: `containers.change_seq` is the map `PageTables.changeSeq`, because every content write advances it and no
key or membership statement reads it.

Identifiers are numbers: `ids.Mint` draws 128 random bits, and the model draws from a supply that never repeats.
Times are nanoseconds; a stored time is RFC 3339 text at second precision, which sorts as the number of seconds.
-/

namespace KyNotes

open Relational

abbrev UserId := Nat
abbrev DeviceId := Nat
abbrev ContainerId := Nat
abbrev ObjectId := Nat
abbrev ConflictId := Nat
abbrev CommentId := Nat
abbrev AttachmentId := Nat
abbrev UploadId := Nat
abbrev InvitationId := Nat
abbrev LinkId := Nat
abbrev Bytes := List UInt8

/-- The bytes of a SHA-256, which the tables hold in hexadecimal. -/
abbrev Digest := List UInt8

/-- Nanoseconds. -/
abbrev Time := Nat

/-- A stored time: whole seconds. -/
abbrev Stamp := Nat

def second : Time := 1000000000

/-- `Format(time.RFC3339)`: the fraction of a second is dropped. -/
def format (t : Time) : Stamp := t / second

/-- `parseTime`. -/
def parseTime (s : Stamp) : Time := s * second

/-- 24 hours. -/
def day : Time := 24 * 3600 * second

inductive Role | owner | admin | editor | commenter | viewer
deriving DecidableEq, Repr

/-- `isSteward`. -/
def isSteward (r : Role) : Bool := r = .owner ∨ r = .admin

/-- The test `role != "owner" && role != "admin" && role != "editor"`, negated. -/
def canEdit (r : Role) : Bool := r = .owner ∨ r = .admin ∨ r = .editor

inductive Kind | workbook | project | team
deriving DecidableEq, Repr

inductive AccountKind | user | admin
deriving DecidableEq, Repr

inductive Status | active | disabled
deriving DecidableEq, Repr

/-! ## Accounts, keys and membership -/

structure User where
  id : UserId
  accountKind : AccountKind
  status : Status
  /-- `0`: the configured default. -/
  quotaBytes : Nat
deriving DecidableEq

/-- A paired device, or the user's identity (`platform='identity'`). -/
structure Device where
  id : DeviceId
  userId : UserId
  fingerprint : Nat
  identity : Bool
  revokedAt : Option Stamp
deriving DecidableEq

structure UserIdentity where
  userId : UserId
  deviceId : DeviceId
deriving DecidableEq

/-- A container row without `change_seq`. -/
structure Container where
  id : ContainerId
  kind : Kind
  ownerUserId : UserId
  teamId : Option ContainerId
  keyGeneration : Nat
  /-- First generation minted by a rotation; `0`: never. -/
  sharedGeneration : Nat
  metaVersion : Nat
  deletedAt : Option Stamp
deriving DecidableEq

structure Membership where
  containerId : ContainerId
  userId : UserId
  role : Role
  revokedAt : Option Stamp
  invitedBy : Option UserId
  approved : Bool
  pendingRole : Option Role
deriving DecidableEq

/-- `idx_memberships_container_user`. -/
def Membership.key (m : Membership) : ContainerId × UserId := (m.containerId, m.userId)

/-- The envelope formats a client may store; `other` is every label that is refused. -/
inductive Alg | hpkeAuth | legacy | other
deriving DecidableEq, Repr

structure KeyEnvelope where
  containerId : ContainerId
  deviceId : DeviceId
  keyGeneration : Nat
  alg : Alg
  envelope : Bytes
deriving DecidableEq

/-- `idx_envelopes_container_device_gen`. -/
def KeyEnvelope.key (e : KeyEnvelope) : ContainerId × DeviceId × Nat := (e.containerId, e.deviceId, e.keyGeneration)

inductive InvitationStatus | pending | accepted
deriving DecidableEq, Repr

structure Invitation where
  id : InvitationId
  containerId : ContainerId
  inviterId : UserId
  inviteeId : UserId
  token : Nat
  role : Role
  status : InvitationStatus
  expiresAt : Stamp
deriving DecidableEq

structure InvitationEnvelope where
  invitationId : InvitationId
  containerId : ContainerId
  deviceId : DeviceId
  keyGeneration : Nat
  alg : Alg
  envelope : Bytes
deriving DecidableEq

def InvitationEnvelope.key (e : InvitationEnvelope) : InvitationId × ContainerId := (e.invitationId, e.containerId)

structure KeyTables where
  users : Table User.id
  devices : Table Device.id
  userIdentities : Table UserIdentity.userId
  containers : Table Container.id
  memberships : Table Membership.key
  keyEnvelopes : Table KeyEnvelope.key
  invitations : Table Invitation.id
  invitationEnvelopes : Table InvitationEnvelope.key

/-! ## Pages -/

structure Object where
  id : ObjectId
  containerId : ContainerId
  currentVersion : Nat
  changeSeq : Nat
  routing : Bytes
  deletedAt : Option Stamp
deriving DecidableEq

structure ObjectVersion where
  objectId : ObjectId
  version : Nat
  blobDigest : Digest
  ciphertextBytes : Nat
  keyGeneration : Nat
  baseVersion : Int
  changeSeq : Nat
  authorUserId : UserId
deriving DecidableEq

def ObjectVersion.key (v : ObjectVersion) : ObjectId × Nat := (v.objectId, v.version)

structure Conflict where
  id : ConflictId
  objectId : ObjectId
  containerId : ContainerId
  baseVersion : Int
  currentVersion : Nat
  blobDigest : Digest
  ciphertextBytes : Nat
  keyGeneration : Nat
  changeSeq : Nat
  resolvedAt : Option Stamp
deriving DecidableEq

structure Comment where
  id : CommentId
  containerId : ContainerId
  objectId : ObjectId
  authorUserId : UserId
  /-- `length(body_ciphertext)`; a deleted comment's body is emptied. -/
  bodyBytes : Nat
  keyGeneration : Nat
  changeSeq : Nat
  deletedAt : Option Stamp
deriving DecidableEq

structure Attachment where
  id : AttachmentId
  containerId : ContainerId
  blobDigest : Digest
  previewDigest : Option Digest
  ciphertextBytes : Nat
  keyGeneration : Nat
  changeSeq : Nat
  deletedAt : Option Stamp
deriving DecidableEq

structure AttachmentRef where
  attachmentId : AttachmentId
  objectId : ObjectId
  objectVersion : Int
deriving DecidableEq

def AttachmentRef.key (r : AttachmentRef) : AttachmentId × ObjectId × Int :=
  (r.attachmentId, r.objectId, r.objectVersion)

/-- What an `Idempotency-Key` is hashed with. The hash also takes the route text, which is one constant for every
object, and user ids hold no NUL: the hashed bytes determine this pair. -/
structure IdemKey where
  userId : UserId
  header : String
deriving DecidableEq, Repr

structure IdempotencyKey where
  key : IdemKey
  /-- The object of a save, the conflict of a refused one. -/
  responseId : Nat
  statusCode : Nat
  createdAt : Stamp
  /-- `0` on rows older than the column. -/
  objectVersion : Nat
deriving DecidableEq

structure PageTables where
  /-- `containers.change_seq`. -/
  changeSeq : ContainerId → Nat
  objects : Table Object.id
  objectVersions : Table ObjectVersion.key
  conflicts : Table Conflict.id
  comments : Table Comment.id
  attachments : Table Attachment.id
  attachmentRefs : Table AttachmentRef.key
  idempotencyKeys : Table IdempotencyKey.key

/-! ## Uploads, blobs and share links -/

inductive UploadKind | attachment | preview
deriving DecidableEq, Repr

inductive UploadStatus | pending | failed | expired | finalized
deriving DecidableEq, Repr

structure UploadSession where
  id : UploadId
  userId : UserId
  containerId : ContainerId
  kind : UploadKind
  declaredBytes : Nat
  chunkBytes : Nat
  expectedDigest : Option Digest
  receivedBytes : Nat
  nextChunk : Nat
  status : UploadStatus
  createdAt : Stamp
  updatedAt : Stamp
  expiresAt : Stamp
  finalizedDigest : Option Digest
deriving DecidableEq

structure Blob where
  digest : Digest
  sizeBytes : Nat
  unreferencedSince : Option Stamp
deriving DecidableEq

structure SealedShareLink where
  id : LinkId
  ownerUserId : UserId
  /-- `length(ciphertext)`. -/
  bytes : Nat
  expiresAt : Stamp
  revokedAt : Option Stamp
deriving DecidableEq

/-- The database. -/
structure DB where
  keys : KeyTables
  pages : PageTables
  uploadSessions : Table UploadSession.id
  blobs : Table Blob.digest
  sealedShareLinks : Table SealedShareLink.id

/-- A fresh database: every migration applied, no rows. -/
def DB.empty : DB where
  keys := ⟨.empty, .empty, .empty, .empty, .empty, .empty, .empty, .empty⟩
  pages := ⟨fun _ => 0, .empty, .empty, .empty, .empty, .empty, .empty, .empty⟩
  uploadSessions := .empty
  blobs := .empty
  sealedShareLinks := .empty

/-! ## Limits and errors -/

/-- The limits of the configuration, and SHA-256. -/
structure Config where
  sha256 : Bytes → Digest
  /-- `0`: no limit. -/
  objectMaxBytes : Nat
  attachmentMaxBytes : Nat
  chunkBytes : Nat
  uploadTTL : Time
  /-- `0`: no limit. -/
  userQuotaBytes : Nat
  /-- `0`: no limit. -/
  teamQuotaBytes : Nat
  gcRetention : Time

/-- The errors of the handlers' transactions. -/
inductive Err
  | stepUpInvalid | notMember | noRows | insufficientRole | envelopeInvalid | mentionNotMember | envelopeExists
  | generationMoved | keyRotationIncomplete | membershipExists | versionConflict | staleClient | identityExists
  | recoveryMoved | resetLimit | deleteReauth | quota | commentPageGone | storageFull | internal
deriving DecidableEq, Repr

/-- `teamKeyError`: status, code and message of a team-key or write-gate error. -/
def teamKeyError : Err → Nat × String × String
  | .stepUpInvalid => (403, "step_up_required", "re-enter your password to continue")
  | .notMember | .noRows => (404, "not_found", "not found")
  | .insufficientRole => (403, "forbidden", "insufficient role")
  | .envelopeInvalid => (400, "invalid_request", "invalid request")
  | .mentionNotMember => (400, "invalid_request", "a mentioned user is not a member of this notebook")
  | .envelopeExists => (409, "already_exists", "envelope already exists")
  | .generationMoved => (409, "already_exists", "key generation changed")
  | .keyRotationIncomplete => (409, "already_exists", "key rotation incomplete")
  | .versionConflict => (409, "version_conflict", "base version is stale")
  | .staleClient => (409, "already_exists", "this notebook uses shared keys: reload the page")
  | _ => (500, "internal", "internal server error")

end KyNotes
