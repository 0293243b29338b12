import KyNotes.Shares.Links

/-!
# Reads

What the `GET` routes of `object_routes.go`, `upload_routes.go`, `collab_routes.go`, `container_routes.go`,
`device_routes.go`, `sync_routes.go` and `teamkeys_routes.go` answer from the store. A join is written as the lookups
that its keys allow. Answers leave out the columns that the tables leave out; where a route sorts by one of them, the
rows come in the order in which they were stored.
-/

namespace KyNotes.Reads

open Relational

/-! ## Callers, questions and answers -/

/-- Who asks: an everyday session, or a paired device with its `device_containers`. -/
inductive Caller
  | session (userId : UserId)
  | device (userId : UserId) (id : DeviceId) (selected : List ContainerId)
deriving DecidableEq

/-- `CredentialUserID`. -/
def Caller.userId : Caller → UserId
  | .session u | .device u _ _ => u

/-- A device reads the containers that were selected for it. -/
def Caller.selects : Caller → ContainerId → Bool
  | .session _, _ => true
  | .device _ _ selected, cid => cid ∈ selected

/-- The `version` of a page's address as the query compares it: empty, a number, or a text that equals no number. -/
inductive VersionArg | current | number (n : Int) | text
deriving DecidableEq

/-- `CASE WHEN ?='' THEN o.current_version ELSE ? END`. -/
def VersionArg.version (current : Nat) : VersionArg → Option Nat
  | .current => some current
  | .number n => if 0 ≤ n then some n.toNat else none
  | .text => none

inductive Question
  | containers
  | members (cid : ContainerId)
  | envelopes (cid : ContainerId)
  | changes (cid : ContainerId) (since limit : Int)
  | object (oid : ObjectId) (version : VersionArg)
  | conflicts (oid : ObjectId)
  | conflict (id : ConflictId)
  | comments (oid : ObjectId)
  | attachments (oid : ObjectId)
  | attachment (id : AttachmentId)
  | preview (id : AttachmentId)
  | upload (id : UploadId)
  | identity (target : UserId)
deriving DecidableEq

structure ContainerEntry where
  id : ContainerId
  kind : Kind
  teamId : Option ContainerId
  metaVersion : Nat
  changeSeq : Nat
  keyGeneration : Nat
  sharedGeneration : Nat
deriving DecidableEq

structure MemberEntry where
  userId : UserId
  role : Role
  approved : Bool
  pendingRole : Option Role
deriving DecidableEq

structure EnvelopeEntry where
  deviceId : DeviceId
  keyGeneration : Nat
  alg : Alg
  envelope : Bytes
deriving DecidableEq

structure ConflictEntry where
  id : ConflictId
  baseVersion : Int
  currentVersion : Nat
  bytes : Nat
  keyGeneration : Nat
  resolved : Bool
deriving DecidableEq

structure CommentEntry where
  id : CommentId
  authorUserId : UserId
  bodyBytes : Nat
  keyGeneration : Nat
deriving DecidableEq

structure AttachmentEntry where
  id : AttachmentId
  bytes : Nat
  keyGeneration : Nat
deriving DecidableEq

inductive Reading
  | error (status : Nat) (code : String)
  | containers (es : List ContainerEntry)
  | members (es : List MemberEntry)
  | envelopes (es : List EnvelopeEntry)
  | changes (page : FeedPage)
  | object (body : Bytes) (version keyGeneration : Nat) (digest : Digest) (changeSeq : Nat)
  | conflicts (es : List ConflictEntry)
  | comments (es : List CommentEntry)
  | attachments (es : List AttachmentEntry)
  | bytes (b : Bytes)
  | upload (status : UploadStatus) (receivedBytes nextChunk : Nat) (expiresAt : Stamp)
  | identity (deviceId : DeviceId) (fingerprint : Nat)
deriving DecidableEq

/-! ## Routes -/

section Routes

variable (cfg : Config) (s : Store)

/-- `GET /containers`. -/
def getContainers (c : Caller) : Reading :=
  .containers ((s.db.keys.containers.rows.filter fun x =>
    (liveMember s.db.keys x.id c.userId).isSome ∧ x.deletedAt = none ∧ c.selects x.id).map fun x =>
      ⟨x.id, x.kind, x.teamId, x.metaVersion, s.db.pages.changeSeq x.id, x.keyGeneration, x.sharedGeneration⟩)

/-- `GET /containers/{id}/members`. -/
def getMembers (cid : ContainerId) (userId : UserId) : Reading :=
  match liveRole s.db.keys cid userId with
  | none => .error 404 "not_found"
  | some _ =>
    .members ((s.db.keys.memberships.rows.filter fun m =>
      m.containerId = cid ∧ m.revokedAt = none ∧ (s.db.keys.users.get m.userId).isSome).map fun m =>
        ⟨m.userId, m.role, m.approved, m.pendingRole⟩)

/-- The envelopes of a device are its own. -/
def Caller.receives : Caller → KeyEnvelope → Bool
  | .session _, _ => true
  | .device _ id _, e => e.deviceId = id

/-- `GET /containers/{id}/envelopes`. -/
def getEnvelopes (c : Caller) (cid : ContainerId) : Reading :=
  match liveMember s.db.keys cid c.userId with
  | none => .error 404 "not_found"
  | some _ =>
    .envelopes ((s.db.keys.keyEnvelopes.rows.filter fun e => e.containerId = cid ∧ c.receives e).map fun e =>
      ⟨e.deviceId, e.keyGeneration, e.alg, e.envelope⟩)

/-- `GET /containers/{id}/changes`. -/
def getChanges (c : Caller) (cid : ContainerId) (since limit : Int) : Reading :=
  match liveMember s.db.keys cid c.userId with
  | none => .error 404 "not_found"
  | some _ => if c.selects cid then .changes (changes s.db.pages cid since limit) else .error 404 "not_found"

/-- The page and the version that `GET /objects/{id}` joins. -/
def selectVersion (userId : UserId) (oid : ObjectId) (arg : VersionArg) : Option (Object × ObjectVersion) := do
  let o ← s.db.pages.objects.get oid
  let _ ← s.db.keys.containers.get o.containerId
  let _ ← liveMember s.db.keys o.containerId userId
  let n ← arg.version o.currentVersion
  let v ← s.db.pages.objectVersions.get (o.id, n)
  pure (o, v)

/-- `GET /objects/{id}`. -/
def getObject (c : Caller) (oid : ObjectId) (arg : VersionArg) : Reading :=
  match selectVersion s c.userId oid arg with
  | none => .error 404 "not_found"
  | some (o, v) =>
    if c.selects o.containerId then
      match Shares.openBlob cfg s.files v.blobDigest with
      | none => .error 500 "internal"
      | some b => .object b v.version v.keyGeneration v.blobDigest (s.db.pages.changeSeq o.containerId)
    else .error 404 "not_found"

/-- `GET /objects/{id}/conflicts`. The selection of a device is not asked. -/
def getConflicts (userId : UserId) (oid : ObjectId) : Reading :=
  .conflicts ((s.db.pages.conflicts.rows.filter fun c =>
    (liveMember s.db.keys c.containerId userId).isSome ∧ c.objectId = oid).map fun c =>
      ⟨c.id, c.baseVersion, c.currentVersion, c.ciphertextBytes, c.keyGeneration, c.resolvedAt.isSome⟩)

/-- The bytes of a digest; `Store.Open` checks them. -/
def serveBlob (d : Digest) : Reading :=
  match Shares.openBlob cfg s.files d with
  | none => .error 500 "internal"
  | some b => .bytes b

/-- `GET /conflicts/{id}`. The selection of a device is not asked. -/
def getConflict (userId : UserId) (id : ConflictId) : Reading :=
  match (s.db.pages.conflicts.get id).filter fun c => (liveMember s.db.keys c.containerId userId).isSome with
  | none => .error 404 "not_found"
  | some c => serveBlob cfg s c.blobDigest

/-- `GET /objects/{id}/comments`. -/
def getComments (userId : UserId) (oid : ObjectId) : Reading :=
  .comments ((s.db.pages.comments.rows.filter fun c =>
    (liveMember s.db.keys c.containerId userId).isSome ∧ c.objectId = oid ∧ c.deletedAt = none ∧
      (s.db.keys.users.get c.authorUserId).isSome).map fun c => ⟨c.id, c.authorUserId, c.bodyBytes, c.keyGeneration⟩)

/-- `GET /objects/{id}/attachments`: the live attachments that the page links, whatever container they are in. -/
def getAttachments (userId : UserId) (oid : ObjectId) : Reading :=
  .attachments (match (s.db.pages.objects.get oid).filter fun o =>
      (liveMember s.db.keys o.containerId userId).isSome with
    | none => []
    | some _ =>
      (s.db.pages.attachmentRefs.rows.filter fun r => r.objectId = oid).filterMap fun r =>
        ((s.db.pages.attachments.get r.attachmentId).filter fun a => a.deletedAt = none).map fun a =>
          ⟨a.id, a.ciphertextBytes, a.keyGeneration⟩)

/-- The attachment with an id in a container of the caller. -/
def memberAttachment (userId : UserId) (id : AttachmentId) : Option Attachment :=
  (s.db.pages.attachments.get id).filter fun a => (liveMember s.db.keys a.containerId userId).isSome

/-- `GET /attachments/{id}`. -/
def getAttachment (userId : UserId) (id : AttachmentId) : Reading :=
  match memberAttachment s userId id with
  | none => .error 404 "not_found"
  | some a => serveBlob cfg s a.blobDigest

/-- `GET /attachments/{id}/preview`. -/
def getPreview (userId : UserId) (id : AttachmentId) : Reading :=
  match (memberAttachment s userId id).bind Attachment.previewDigest with
  | none => .error 404 "not_found"
  | some d => serveBlob cfg s d

/-- `GET /uploads/{id}`. -/
def getUpload (userId : UserId) (id : UploadId) : Reading :=
  match (s.db.uploadSessions.get id).filter fun u => u.userId = userId with
  | none => .error 404 "not_found"
  | some u => .upload u.status u.receivedBytes u.nextChunk u.expiresAt

/-- The two share a live container. -/
def Acquainted (k : KeyTables) (caller target : UserId) : Prop :=
  ∃ a ∈ k.memberships, a.userId = caller ∧ a.revokedAt = none ∧ (liveContainer k a.containerId).isSome ∧
    ∃ b ∈ k.memberships, b.containerId = a.containerId ∧ b.userId = target ∧ b.revokedAt = none

instance (k : KeyTables) (caller target : UserId) : Decidable (Acquainted k caller target) :=
  inferInstanceAs (Decidable (∃ a ∈ k.memberships, a.userId = caller ∧ a.revokedAt = none ∧
    (liveContainer k a.containerId).isSome ∧
      ∃ b ∈ k.memberships, b.containerId = a.containerId ∧ b.userId = target ∧ b.revokedAt = none))

/-- The target holds a pending invitation of the caller to a live team or project that the caller administers. -/
def InvitedBy (k : KeyTables) (now : Stamp) (caller target : UserId) : Prop :=
  ∃ i ∈ k.invitations, i.inviteeId = target ∧ i.inviterId = caller ∧ i.status = .pending ∧ now < i.expiresAt ∧
    (∃ c ∈ k.containers, c.id = i.containerId ∧ c.deletedAt = none ∧ (c.kind = .team ∨ c.kind = .project)) ∧
    ∃ role ∈ liveRole k i.containerId caller, isSteward role

instance (k : KeyTables) (now : Stamp) (caller target : UserId) : Decidable (InvitedBy k now caller target) :=
  inferInstanceAs (Decidable (∃ i ∈ k.invitations, i.inviteeId = target ∧ i.inviterId = caller ∧ i.status = .pending ∧
    now < i.expiresAt ∧
    (∃ c ∈ k.containers, c.id = i.containerId ∧ c.deletedAt = none ∧ (c.kind = .team ∨ c.kind = .project)) ∧
    ∃ role ∈ liveRole k i.containerId caller, isSteward role))

/-- `GET /users/{id}/identity`. -/
def getIdentity (caller target : UserId) : Reading :=
  match s.db.keys.devices.rows.find? fun d =>
      (d.userId = target ∧ d.identity ∧ d.revokedAt = none) ∧ (∃ u ∈ s.db.keys.users, u.id = target ∧ u.status = .active) ∧
        (target = caller ∨ Acquainted s.db.keys caller target ∨ InvitedBy s.db.keys s.now caller target) with
  | none => .error 404 "not_found"
  | some d => .identity d.id d.fingerprint

/-- `RequireSession`: a device's secret alone does not sign in. -/
def requireSession (c : Caller) (answer : UserId → Reading) : Reading :=
  match c with
  | .session u => answer u
  | .device .. => .error 401 "unauthenticated"

/-- The answer to a question. -/
def serve (c : Caller) : Question → Reading
  | .containers => getContainers s c
  | .members cid => requireSession c (getMembers s cid)
  | .envelopes cid => getEnvelopes s c cid
  | .changes cid since limit => getChanges s c cid since limit
  | .object oid arg => getObject cfg s c oid arg
  | .conflicts oid => getConflicts s c.userId oid
  | .conflict id => getConflict cfg s c.userId id
  | .comments oid => requireSession c fun u => getComments s u oid
  | .attachments oid => requireSession c fun u => getAttachments s u oid
  | .attachment id => requireSession c fun u => getAttachment cfg s u id
  | .preview id => requireSession c fun u => getPreview cfg s u id
  | .upload id => requireSession c fun u => getUpload s u id
  | .identity target => requireSession c fun u => getIdentity s u target

end Routes

end KyNotes.Reads
