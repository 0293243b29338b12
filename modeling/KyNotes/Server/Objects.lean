import KyNotes.Server.Store

/-!
# Pages (`object_routes.go`, `collab_routes.go`, `upload_routes.go`, `share_link_routes.go`)

Saves with their replay, page deletion, conflicts, comments, attachment links and sealed share links. A handler that
reads before its transaction is cut at its transactions and file operations: `putAdmit`, `putCheck` and `putTx` are
the three parts of a save, between which anything may happen.
-/

namespace KyNotes

open Relational Check

/-- The live page with an id. -/
def liveObject (p : PageTables) (oid : ObjectId) : Option Object :=
  (p.objects.get oid).filter fun o => o.deletedAt = none

/-! ## Save -/

/-- `PUT /objects/{id}`. A key generation header that is no positive number is `0`: no container is at generation 0. -/
structure PutReq where
  userId : UserId
  objectId : ObjectId
  generation : Nat
  scheme : Bool
  /-- `none`: the header is no base64. -/
  routing : Option Bytes
  /-- `none`: no `Idempotency-Key`. -/
  idemKey : Option String
  /-- `none`: the header is no number. -/
  base : Option Int
  body : Bytes
deriving DecidableEq

/-- The key the replay is looked up by: the user, the route and the header, but not the page. -/
def PutReq.key (r : PutReq) : Option IdemKey := r.idemKey.map fun h => ⟨r.userId, h⟩

/-- `currentCommitReceipt`. -/
def currentCommitReceipt (p : PageTables) (oid : ObjectId) (version : Nat) : Option Receipt :=
  (p.objectVersions.get (oid, version)).map commitReceipt

/-- `replayObjectSave`: the answer of a stored key, `none` when there is no such key. -/
def replayObjectSave (p : PageTables) (oid : ObjectId) (key : IdemKey) : Option Answer :=
  match p.idempotencyKeys.get key with
  | none => none
  | some row =>
    if row.statusCode = 409 then some (.conflict row.objectVersion row.responseId)
    else if row.objectVersion = 0 then
      -- keys older than stored versions answer with the current one
      match p.objects.get oid with
      | none => some (.error 500 "internal")
      | some o => some (.replayed o.currentVersion row.responseId (currentCommitReceipt p oid o.currentVersion))
    else some (.replayed row.objectVersion row.responseId (currentCommitReceipt p oid row.objectVersion))

/-- The replay of a request, if it carries a key that is stored. -/
def PutReq.replay (p : PageTables) (r : PutReq) : Option Answer := r.key.bind (replayObjectSave p r.objectId)

/-- A page's container and the caller's role there. -/
def objectRole (db : DB) (oid : ObjectId) (userId : UserId) : Option (Object × Role) :=
  (db.pages.objects.get oid).bind fun o => (liveRole db.keys o.containerId userId).map fun role => (o, role)

/-- `objectRole` of a role that may write. -/
def editableObject (db : DB) (oid : ObjectId) (userId : UserId) : Except Answer Object := do
  let (o, role) ← fetch (objectRole db oid userId) (.error 404 "not_found")
  require (canEdit role) (.error 403 "forbidden")
  pure o

/-- A save up to the end of its body: the container it writes to. -/
def putAdmit (cfg : Config) (db : DB) (r : PutReq) : Except Answer ContainerId := do
  let (o, role) ← fetch (objectRole db r.objectId r.userId) (.error 404 "not_found")
  require (o.deletedAt = none) (.error 404 "not_found")
  require (canEdit role) (.error 403 "forbidden")
  (checkWriteGate db.keys o.containerId r.userId r.generation r.scheme).mapError errorAnswer
  let routing ← fetch r.routing (.error 400 "invalid_request")
  require (routing.length ≤ 1024) (.error 400 "invalid_request")
  match r.replay db.pages with
  | some a => .error a
  | none => do
    require (r.base ≠ none) (.error 400 "invalid_request")
    require (cfg.objectMaxBytes = 0 ∨ r.body.length ≤ cfg.objectMaxBytes) (.error 413 "payload_too_large")
    pure o.containerId

/-- The checks between the end of the body and `Finalize`. -/
def putCheck (cfg : Config) (db : DB) (now : Stamp) (r : PutReq) (cid : ContainerId) : Except Answer Unit := do
  let _ ← fetch (liveObject db.pages r.objectId) (.error 404 "not_found")
  (checkQuota cfg db now cid none r.body.length).mapError errorAnswer

/-- How a save's transaction ends without a commit: `drop` says that it goes through `refuse`, which drops the file. -/
structure Refusal where
  drop : Bool
  answer : Answer

/-- Through `refuse`. -/
def refused (e : Err) : Refusal := ⟨true, errorAnswer e⟩

/-- A rollback alone. -/
def aborted : Refusal := ⟨false, .error 500 "internal"⟩

/-- The checks that a save repeats inside its transaction: the page's current version. -/
def putGate (cfg : Config) (db : DB) (now : Stamp) (r : PutReq) (cid : ContainerId) (size : Nat) :
    Except Refusal Nat := do
  (checkWriteGate db.keys cid r.userId r.generation r.scheme).mapError refused
  let role ← fetch (liveRole db.keys cid r.userId) (refused .noRows)
  require (canEdit role) (refused .insufficientRole)
  -- another tab may have committed this exact edit while both bodies streamed
  match r.replay db.pages with
  | some a => .error ⟨true, a⟩
  | none => do
    (checkQuota cfg db now cid none size).mapError refused
    let o ← fetch (liveObject db.pages r.objectId) (refused .noRows)
    pure o.currentVersion

/-- The row a save stores. -/
inductive SavedRow
  | version (v : ObjectVersion)
  | conflict (c : Conflict)
deriving DecidableEq

/-- The answer to a save that stored a row. -/
def SavedRow.answer : SavedRow → Answer
  | .version v => .saved v.version v.blobDigest v.ciphertextBytes (commitReceipt v)
  | .conflict c => .conflict c.currentVersion c.id

/-- `INSERT INTO idempotency_keys`, when the request carries a key. -/
def recordKey (p : PageTables) (r : PutReq) (responseId statusCode : Nat) (now : Stamp) (version : Nat) :
    Except Refusal PageTables :=
  match r.key with
  | none => .ok p
  | some key => do
    let t ← fetch (p.idempotencyKeys.insert ⟨key, responseId, statusCode, now, version⟩) aborted
    pure { p with idempotencyKeys := t }

/-- A base other than the current version: a conflict with the rejected bytes. -/
def putConflict (p : PageTables) (now : Stamp) (r : PutReq) (cid : ContainerId) (d : Digest) (size : Nat) (base : Int)
    (live : Nat) (id : ConflictId) : Except Refusal (PageTables × SavedRow) := do
  let p₁ := bumpSeq p cid
  let row : Conflict := ⟨id, r.objectId, cid, base, live, d, size, r.generation, p₁.changeSeq cid, none⟩
  let t ← fetch (p₁.conflicts.insert row) aborted
  let p₂ ← recordKey { p₁ with conflicts := t } r id 409 now live
  pure (p₂, .conflict row)

/-- The base is the current version: the next version. -/
def putVersion (p : PageTables) (now : Stamp) (r : PutReq) (cid : ContainerId) (d : Digest) (size : Nat) (base : Int)
    (live : Nat) : Except Refusal (PageTables × SavedRow) := do
  let p₁ := bumpSeq p cid
  let row : ObjectVersion :=
    ⟨r.objectId, live + 1, d, size, r.generation, base, p₁.changeSeq cid, r.userId⟩
  let t ← fetch (p₁.objectVersions.insert row) aborted
  let o := p₁.objects.update (fun o => o.id = r.objectId) fun o =>
    { o with currentVersion := live + 1, changeSeq := p₁.changeSeq cid, routing := r.routing.getD [] }
  let p₂ ← recordKey { p₁ with objectVersions := t, objects := o } r r.objectId 200 now (live + 1)
  pure (p₂, .version row)

/-- The transaction of a save whose bytes are at digest `d`; `id` is the identifier of a conflict. -/
def putTx (cfg : Config) (s : Store) (r : PutReq) (cid : ContainerId) (d : Digest) (id : ConflictId) :
    Except Refusal (DB × SavedRow) := do
  let live ← putGate cfg s.db s.now r cid r.body.length
  let base := r.base.getD 0
  let blobs ← (claimBlob s.db.blobs s.files d r.body.length).mapError fun _ => aborted
  let (pages, row) ←
    if base ≠ live then putConflict s.db.pages s.now r cid d r.body.length base live id
    else putVersion s.db.pages s.now r cid d r.body.length base live
  pure ({ s.db with pages := pages, blobs := blobs }, row)

/-! ## Deletion -/

/-- The attachments that go with a page: live, linked to it and to no other page. -/
def OnlyOn (p : PageTables) (oid : ObjectId) (a : Attachment) : Prop :=
  a.deletedAt = none ∧ (∃ r ∈ p.attachmentRefs, r.attachmentId = a.id ∧ r.objectId = oid) ∧
    ¬∃ r ∈ p.attachmentRefs, r.attachmentId = a.id ∧ r.objectId ≠ oid

instance (p : PageTables) (oid : ObjectId) : DecidablePred (OnlyOn p oid) := fun a =>
  inferInstanceAs (Decidable (a.deletedAt = none ∧ (∃ r ∈ p.attachmentRefs, r.attachmentId = a.id ∧ r.objectId = oid) ∧
    ¬∃ r ∈ p.attachmentRefs, r.attachmentId = a.id ∧ r.objectId ≠ oid))

/-- The transaction of `DELETE /objects/{id}`: the page is stamped with the new `change_seq`, the attachments that go
with it are not. -/
def deleteObjectTx (p : PageTables) (cid : ContainerId) (oid : ObjectId) (now : Stamp) : PageTables :=
  let p₁ := bumpSeq p cid
  { p₁ with
    objects := p₁.objects.update (fun o => o.id = oid) fun o =>
      { o with deletedAt := some now, changeSeq := p₁.changeSeq cid }
    attachments := p₁.attachments.update (OnlyOn p oid) fun a => { a with deletedAt := some now }
    attachmentRefs := p₁.attachmentRefs.delete fun r => r.objectId = oid
    comments := p₁.comments.delete fun c => c.objectId = oid
    conflicts := p₁.conflicts.delete fun c => c.objectId = oid
    objectVersions := p₁.objectVersions.delete fun v => v.objectId = oid }

/-! ## Conflicts -/

/-- `POST /conflicts/{id}/resolve`. -/
def resolveConflict (db : DB) (userId : UserId) (id : ConflictId) (now : Stamp) : Except Err PageTables := do
  let c ← fetch (db.pages.conflicts.get id) .noRows
  let role ← fetch (liveRole db.keys c.containerId userId) .noRows
  require (canEdit role) .insufficientRole
  let p₁ := bumpSeq db.pages c.containerId
  let t := p₁.conflicts.update (fun x => x.id = id) fun x =>
    { x with resolvedAt := some now, changeSeq := p₁.changeSeq c.containerId }
  pure { p₁ with conflicts := t }

/-! ## Comments -/

/-- `POST /objects/{id}/comments`. -/
structure CommentReq where
  userId : UserId
  objectId : ObjectId
  generation : Nat
  scheme : Bool
  bodyBytes : Nat
  mentions : List UserId
  /-- The verdict of `ReserveCleanupAuditTx` and `checkDatabaseBudget`. -/
  budget : Bool
deriving DecidableEq

/-- `MaxCommentBytes`. -/
def maxCommentBytes : Nat := 64 * 1024

/-- The checks before the transaction. -/
def commentAdmit (db : DB) (r : CommentReq) : Except Answer ContainerId := do
  let (o, role) ← fetch (objectRole db r.objectId r.userId) (.error 404 "not_found")
  require (o.deletedAt = none) (.error 404 "not_found")
  require (role ≠ .viewer) (.error 403 "forbidden")
  require (1 ≤ r.generation ∧ r.mentions.length ≤ 100) (.error 400 "invalid_request")
  (checkWriteGate db.keys o.containerId r.userId r.generation r.scheme).mapError errorAnswer
  require (r.bodyBytes ≤ maxCommentBytes) (.error 413 "payload_too_large")
  pure o.containerId

/-- One mention: only a current member, and once. -/
def mentionTx (k : KeyTables) (cid : ContainerId) (seen : List UserId) (u : UserId) : Except Err (List UserId) := do
  require ((liveMember k cid u).isSome) .mentionNotMember
  require (u ∉ seen) .internal
  pure (u :: seen)

/-- The transaction. -/
def commentTx (cfg : Config) (db : DB) (now : Stamp) (r : CommentReq) (cid : ContainerId) (id : CommentId) :
    Except Err PageTables := do
  checkWriteGate db.keys cid r.userId r.generation r.scheme
  let _ ← fetch (liveObject db.pages r.objectId) .commentPageGone
  checkQuota cfg db now cid none r.bodyBytes
  let p₁ := bumpSeq db.pages cid
  let t ← fetch (p₁.comments.insert
    ⟨id, cid, r.objectId, r.userId, r.bodyBytes, r.generation, p₁.changeSeq cid, none⟩) .internal
  let _ ← forEach (mentionTx db.keys cid) [] r.mentions
  require (r.budget = true) .storageFull
  pure { p₁ with comments := t }

/-- `DELETE /comments/{id}`: a retry changes nothing. -/
def deleteComment (db : DB) (userId : UserId) (id : CommentId) (now : Stamp) : Except Err PageTables := do
  let c ← fetch (db.pages.comments.get id) .noRows
  let _ ← fetch (liveContainer db.keys c.containerId) .noRows
  let _ ← fetch (liveObject db.pages c.objectId) .noRows
  let m ← fetch ((liveMember db.keys c.containerId userId).filter fun m => m.approved) .noRows
  require (c.authorUserId = userId ∨ isSteward m.role) .insufficientRole
  if c.deletedAt = none then
    let p₁ := bumpSeq db.pages c.containerId
    let t := p₁.comments.update (fun x => x.id = id) fun x =>
      { x with deletedAt := some now, bodyBytes := 0, changeSeq := p₁.changeSeq c.containerId }
    pure { p₁ with comments := t }
  else pure db.pages

/-! ## Attachment links -/

/-- The statement of `POST /objects/{id}/attachments`: only a live attachment and a live page of one container. -/
def linkTx (p : PageTables) (cid : ContainerId) (oid : ObjectId) (att : AttachmentId) (version : Int) :
    Except Err PageTables := do
  let a ← fetch ((p.attachments.get att).filter fun a => a.containerId = cid ∧ a.deletedAt = none) .noRows
  let _ ← fetch ((liveObject p oid).filter fun o => o.containerId = a.containerId) .noRows
  pure { p with attachmentRefs := p.attachmentRefs.insertOrIgnore ⟨att, oid, version⟩ }

/-- The statement of `DELETE /objects/{id}/attachments/{attachmentId}`. -/
def unlinkTx (p : PageTables) (oid : ObjectId) (att : AttachmentId) : PageTables :=
  { p with attachmentRefs := p.attachmentRefs.delete fun r => r.objectId = oid ∧ r.attachmentId = att }

/-! ## Sealed share links -/

/-- `POST /share-links`. -/
def createShareLink (cfg : Config) (db : DB) (now : Stamp) (userId : UserId) (id : LinkId) (bytes : Nat)
    (expiresAt : Stamp) (budget : Bool) : Except Err (Table SealedShareLink.id) := do
  let u ← fetch (db.keys.users.get userId) .internal
  require (userQuotaExceeded cfg db now u none bytes = false) .quota
  let t ← fetch (db.sealedShareLinks.insert ⟨id, userId, bytes, expiresAt, none⟩) .internal
  require (budget = true) .storageFull
  pure t

/-- `DELETE /share-links/{id}`. -/
def revokeShareLink (db : DB) (userId : UserId) (id : LinkId) (now : Stamp) : Except Err (Table SealedShareLink.id) := do
  require (∃ l ∈ db.sealedShareLinks, l.id = id ∧ l.ownerUserId = userId ∧ l.revokedAt = none) .noRows
  pure (db.sealedShareLinks.update (fun l => l.id = id) fun l => { l with revokedAt := some now })

end KyNotes
