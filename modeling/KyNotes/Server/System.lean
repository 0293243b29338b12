import KyNotes.Lib.Run
import KyNotes.Server.Sync

/-!
# The server as a transition system

A world is the store, the requests in flight and the locks of `lockUpload`. An operation is a whole transaction (of a
handler that does nothing else), the arrival of a request, the next action of a request in flight, a crash, or time.

A request in flight is cut where another request can come between: each action is one run of reads, one file
operation, or one transaction (transactions take SQLite's write lock when they begin, so they are serialized). Requests
that the middleware refuses change nothing and are not operations; what a session, a step-up or the database budget
says is part of the operation.

* `act`: the next action of a request in flight.
* `step`: one operation, with what it lets the outside see (`Event`).
-/

namespace KyNotes

open Relational Check

/-! ## Transactions on the key tables -/

inductive KeyOp
  | createUser (accountKind : AccountKind) (status : Status)
  | patchUser (id : UserId) (status : Status) (quotaBytes : Nat)
  | resetPassword (id : UserId)
  | endCredentials (ids : List DeviceId)
  | setStatus (id : UserId) (status : Status)
  | registerDevice (userId : UserId) (fingerprint : Nat)
  | revokeDevice (userId : UserId) (deviceId : DeviceId)
  | createIdentity (userId : UserId) (stepUp : Bool) (fingerprint : Nat)
  | resetIdentity (userId : UserId) (stepUp resetOk : Bool) (expected : Option DeviceId) (fingerprint : Nat)
  | createContainer (userId : UserId) (kind : Kind) (team : Option ContainerId)
  | adminCreateTeam (owner : UserId)
  | rename (userId : UserId) (cid : ContainerId) (scheme : Bool) (generation : Option Nat) (baseVersion : Nat)
  | rotate (caller : UserId) (stepUp : Bool) (cid : ContainerId) (expected : Nat) (vs : List EnvelopeIn)
  | putEnvelopes (caller : UserId) (stepUp : Bool) (cid : ContainerId) (vs : List EnvelopeIn)
  | invite (inviter : UserId) (stepUp : Bool) (cid : ContainerId) (invitee : UserId) (role : Role) (token : Nat)
      (vs : List InvitationEnvelopeIn)
  | accept (userId : UserId) (invitation : InvitationId) (token : Nat)
  | approve (caller : UserId) (cid : ContainerId) (target : UserId)
  | removeMember (caller : UserId) (cid : ContainerId) (target : UserId)
  | adminRemoveMember (cid : ContainerId) (target : UserId)
  | adminAddMember (cid : ContainerId) (userId : UserId) (role : Role)

/-- The transaction of a key operation; `id` is a new identifier. -/
def keyTx (op : KeyOp) (k : KeyTables) (id : Nat) (clock : Time) : Except Err KeyTables :=
  let now := format clock
  match op with
  | .createUser kind status => createUser k id kind status
  | .patchUser u status quota => patchUser k u status quota now
  | .resetPassword u => .ok (resetPassword k u now)
  | .endCredentials ids => .ok (endCredentials k ids now)
  | .setStatus u status => .ok (setStatus k u status)
  | .registerDevice u fp => registerDevice k u id fp
  | .revokeDevice u d => revokeDevice k u d now
  | .createIdentity u stepUp fp => createIdentity k u stepUp id fp
  | .resetIdentity u stepUp resetOk expected fp => resetIdentity k u stepUp resetOk expected id fp now
  | .createContainer u kind team => createContainer k id kind u team
  | .adminCreateTeam owner => adminCreateTeam k id owner
  | .rename u cid scheme generation base => renameContainer k u cid scheme generation base
  | .rotate u stepUp cid expected vs => (rotateKeys k u stepUp cid expected vs).map Prod.fst
  | .putEnvelopes u stepUp cid vs => putEnvelopes k u stepUp cid vs
  | .invite u stepUp cid invitee role token vs => invite k u stepUp id cid invitee role token vs clock
  | .accept u i token => accept k u i token now
  | .approve u cid target => approveMember k u cid target
  | .removeMember u cid target => removeMember k u cid target now
  | .adminRemoveMember cid target => removeMemberTx k cid target now
  | .adminAddMember cid u role => adminAddMember k cid u role

/-- The containers whose `change_seq` a key operation advances; a new container starts at 1. -/
def keySeq (op : KeyOp) (k : KeyTables) (id : Nat) (c : ContainerId) : Prop :=
  match op with
  | .createContainer .. | .adminCreateTeam .. => c = id
  | .rename _ cid .. | .rotate _ _ cid .. => c = cid
  | .removeMember _ cid _ | .adminRemoveMember cid _ => ∃ x ∈ k.containers, x.id = c ∧ Retires cid x
  | .resetIdentity u .. => ∃ x ∈ k.containers, x.id = c ∧ RetiredBy k u x
  | _ => False

instance (op : KeyOp) (k : KeyTables) (id : Nat) : DecidablePred (keySeq op k id) := fun c => by
  cases op <;> unfold keySeq <;> infer_instance

/-! ## Requests in flight -/

inductive Request
  | put (r : PutReq)
  | deleteObject (userId : UserId) (oid : ObjectId)
  | comment (r : CommentReq)
  | link (userId : UserId) (oid : ObjectId) (att : AttachmentId) (version : Int)
  | unlink (userId : UserId) (oid : ObjectId) (att : AttachmentId)
  | startUpload (r : StartReq)
  | patchUpload (r : PatchReq)
  | cancelUpload (userId : UserId) (id : UploadId)
  | finalizeUpload (r : FinalizeReq)
  /-- A pass of `RunGC`. -/
  | gc (blobsEnabled : Bool)
deriving DecidableEq

/-- The next action of a save. -/
inductive PutStage
  | entry | check (cid : ContainerId) | place (cid : ContainerId) | tx (cid : ContainerId) (d : Digest)
deriving DecidableEq

/-- The next action of a handler that checks, then writes to the container it found. -/
inductive TxStage
  | entry | tx (cid : ContainerId)
deriving DecidableEq

inductive StartStage
  | entry | tx | temp (id : UploadId) (expiresAt : Stamp)
deriving DecidableEq

inductive PatchStage
  | entry | lock | read | append (received : Nat) | count (received : Nat)
  /-- The session has failed; its part file goes next. -/
  | doom
deriving DecidableEq

inductive CancelStage
  | entry | abort | tx
deriving DecidableEq

/-- The next action of a finalize, with the session as it was read and what was found since. -/
inductive FinalizeStage
  | read
  | charge (u : UploadSession)
  | entry (u : UploadSession)
  | hash (u : UploadSession)
  | place (u : UploadSession) (hashed : Bytes)
  | cite (u : UploadSession) (d : Digest) (size : Nat)
  | tx (u : UploadSession) (d : Digest) (size : Nat) (preview : Option Digest)
  | doom
deriving DecidableEq

inductive GcStage
  | tombstone | select | abort (ids : List UploadId) | expire (id : UploadId) (ids : List UploadId)
  | uploads | keys | envelopes | links | digests | sweep (ds : List Digest) | unmark | mark
deriving DecidableEq

/-- A request in flight with its next action. -/
inductive Job
  | put (r : PutReq) (st : PutStage)
  | deleteObject (userId : UserId) (oid : ObjectId) (st : TxStage)
  | comment (r : CommentReq) (st : TxStage)
  | link (userId : UserId) (oid : ObjectId) (att : AttachmentId) (version : Int) (st : TxStage)
  | unlink (userId : UserId) (oid : ObjectId) (att : AttachmentId) (st : TxStage)
  | startUpload (r : StartReq) (st : StartStage)
  | patchUpload (r : PatchReq) (st : PatchStage)
  | cancelUpload (userId : UserId) (id : UploadId) (st : CancelStage)
  | finalizeUpload (r : FinalizeReq) (st : FinalizeStage)
  /-- `now` is the time at which the pass began. -/
  | gc (blobsEnabled : Bool) (now : Time) (st : GcStage)
deriving DecidableEq

/-- A request that has just arrived. -/
def Request.start (r : Request) (clock : Time) : Job :=
  match r with
  | .put r => .put r .entry
  | .deleteObject u oid => .deleteObject u oid .entry
  | .comment r => .comment r .entry
  | .link u oid att version => .link u oid att version .entry
  | .unlink u oid att => .unlink u oid att .entry
  | .startUpload r => .startUpload r .entry
  | .patchUpload r => .patchUpload r .entry
  | .cancelUpload u id => .cancelUpload u id .entry
  | .finalizeUpload r => .finalizeUpload r .read
  | .gc blobsEnabled => .gc blobsEnabled clock .tombstone

abbrev RequestId := Nat

structure InFlight where
  id : RequestId
  job : Job
deriving DecidableEq

structure World where
  store : Store
  inflight : Table InFlight.id
  /-- The request that holds the lock of an upload session. -/
  locks : UploadId → Option RequestId

/-- The key tables of a world. -/
abbrev World.keys (w : World) : KeyTables := w.store.db.keys

/-- The page tables of a world. -/
abbrev World.pages (w : World) : PageTables := w.store.db.pages

/-- A server that was just installed. -/
def World.init : World := ⟨⟨.empty, fun _ => none, fun _ => none, 0, 0⟩, .empty, fun _ => none⟩

/-! ## What the outside sees -/

inductive Event
  /-- A save stored a row. -/
  | saved (rid : RequestId) (r : PutReq) (row : SavedRow)
  /-- A chunk was counted. -/
  | chunk (id : UploadId) (index : Nat) (body : Bytes)
  /-- A finalize committed. -/
  | finalized (rid : RequestId) (r : FinalizeReq) (d : Digest)
  | answered (rid : RequestId) (r : Request) (a : Answer)
deriving DecidableEq

/-- What an action leaves behind: the store, the events, and the rest of the request, `none` at its end. -/
structure Outcome where
  store : Store
  events : List Event
  next : Option Job

/-! ## Actions -/

/-- The request ends with an answer. -/
def reply (s : Store) (rid : RequestId) (req : Request) (a : Answer) : Outcome := ⟨s, [.answered rid req a], none⟩

/-- The request goes on. -/
def goOn (s : Store) (j : Job) : Outcome := ⟨s, [], some j⟩

/-- A run of reads: an error is the answer. -/
def ask (s : Store) (rid : RequestId) (req : Request) (x : Except Answer Job) : Outcome :=
  match x with
  | .error a => reply s rid req a
  | .ok j => goOn s j

/-- The end of a transaction: an error is a rollback. -/
def finish (s : Store) (rid : RequestId) (req : Request) (x : Except Err (Store × Answer)) : Outcome :=
  match x with
  | .error e => reply s rid req (errorAnswer e)
  | .ok (s', a) => reply s' rid req a

/-- A refused transaction: `refuse` drops the file, a plain rollback keeps it. -/
def rollback (s : Store) (rid : RequestId) (req : Request) (d : Digest) (x : Refusal) : Outcome :=
  reply (if x.drop then { s with files := dropUnclaimed s.db.blobs s.files d } else s) rid req x.answer

section Act

variable (cfg : Config) (s : Store) (rid : RequestId)

/-- Actions of a save. -/
def actPut (r : PutReq) : PutStage → Outcome
  | .entry => ask s rid (.put r) ((putAdmit cfg s.db r).map fun cid => .put r (.check cid))
  | .check cid => ask s rid (.put r) ((putCheck cfg s.db s.now r cid).map fun _ => .put r (.place cid))
  | .place cid =>
    match tempFinalize cfg s.files r.body (some r.body) none with
    | .error _ => reply s rid (.put r) (.error 500 "internal")
    | .ok (files, d) => goOn { s with files := files } (.put r (.tx cid d))
  | .tx cid d =>
    match putTx cfg s r cid d s.next with
    | .error x => rollback s rid (.put r) d x
    | .ok (db, row) =>
      ⟨{ s with db := db, next := s.next + 1 }, [.saved rid r row, .answered rid (.put r) row.answer], none⟩

/-- Actions of a page deletion. -/
def actDelete (userId : UserId) (oid : ObjectId) : TxStage → Outcome
  | .entry =>
    ask s rid (.deleteObject userId oid) ((editableObject s.db oid userId).map fun o =>
      .deleteObject userId oid (.tx o.containerId))
  | .tx cid =>
    reply { s with db := { s.db with pages := deleteObjectTx s.db.pages cid oid s.now } } rid
      (.deleteObject userId oid) .noContent

/-- Actions of a new comment. -/
def actComment (r : CommentReq) : TxStage → Outcome
  | .entry => ask s rid (.comment r) ((commentAdmit s.db r).map fun cid => .comment r (.tx cid))
  | .tx cid =>
    finish s rid (.comment r) ((commentTx cfg s.db s.now r cid s.next).map fun p =>
      ({ s with db := { s.db with pages := p }, next := s.next + 1 }, .commented s.next))

/-- Actions of an attachment link. -/
def actLink (userId : UserId) (oid : ObjectId) (att : AttachmentId) (version : Int) : TxStage → Outcome
  | .entry =>
    ask s rid (.link userId oid att version) ((editableObject s.db oid userId).map fun o =>
      .link userId oid att version (.tx o.containerId))
  | .tx cid =>
    finish s rid (.link userId oid att version) ((linkTx s.db.pages cid oid att version).map fun p =>
      ({ s with db := { s.db with pages := p } }, .noContent))

/-- Actions of an attachment unlink. -/
def actUnlink (userId : UserId) (oid : ObjectId) (att : AttachmentId) : TxStage → Outcome
  | .entry =>
    ask s rid (.unlink userId oid att) ((editableObject s.db oid userId).map fun o =>
      .unlink userId oid att (.tx o.containerId))
  | .tx _ =>
    reply { s with db := { s.db with pages := unlinkTx s.db.pages oid att } } rid (.unlink userId oid att) .noContent

/-- Actions of an upload start. -/
def actStart (r : StartReq) : StartStage → Outcome
  | .entry => ask s rid (.startUpload r) ((startAdmit cfg s.db s.now r).map fun _ => .startUpload r .tx)
  | .tx =>
    match startTx cfg s r s.next with
    | .error e => reply s rid (.startUpload r) (errorAnswer e)
    | .ok db =>
      goOn { s with db := db, next := s.next + 1 }
        (.startUpload r (.temp s.next (format (s.clock + cfg.uploadTTL))))
  | .temp id expiresAt =>
    reply { s with parts := assign s.parts id (some []) } rid (.startUpload r)
      (.uploading id cfg.chunkBytes expiresAt)

/-- Actions of a chunk. The lock is taken in `World.act`. -/
def actPatch (r : PatchReq) : PatchStage → Outcome
  | .entry => ask s rid (.patchUpload r) ((patchAdmit s.db r).map fun _ => .patchUpload r .lock)
  | .lock => goOn s (.patchUpload r .read)
  | .read =>
    match patchRead s r with
    | .answer a => reply s rid (.patchUpload r) a
    | .doom => goOn { s with db := failSession s.db r.id } (.patchUpload r .doom)
    | .append received => goOn s (.patchUpload r (.append received))
  | .append received =>
    match patchAppend (s.parts r.id) received r.body with
    | none => reply s rid (.patchUpload r) (.error 500 "internal")
    | some b => goOn { s with parts := assign s.parts r.id (some b) } (.patchUpload r (.count received))
  | .count received =>
    ⟨{ s with db := patchCount cfg s r.id r.body.length },
      [.chunk r.id r.index r.body,
        .answered rid (.patchUpload r) (.chunk (received + r.body.length) (r.index + 1))], none⟩
  | .doom =>
    reply { s with parts := assign s.parts r.id none } rid (.patchUpload r) (.error 413 "payload_too_large")

/-- Actions of an upload cancellation. -/
def actCancel (userId : UserId) (id : UploadId) : CancelStage → Outcome
  | .entry =>
    match ownSession s.db userId id with
    | none => reply s rid (.cancelUpload userId id) (.error 404 "not_found")
    | some _ => goOn s (.cancelUpload userId id .abort)
  | .abort => goOn { s with parts := assign s.parts id none } (.cancelUpload userId id .tx)
  | .tx => reply { s with db := cancelSession s.db id s.now } rid (.cancelUpload userId id) .noContent

/-- Actions of an upload finalize. -/
def actFinalize (r : FinalizeReq) : FinalizeStage → Outcome
  | .read => ask s rid (.finalizeUpload r) ((finalizeRead s r).map fun u => .finalizeUpload r (.charge u))
  | .charge u =>
    match checkQuota cfg s.db s.now u.containerId (some r.id) u.receivedBytes with
    | .ok _ => goOn s (.finalizeUpload r (.entry u))
    | .error .quota => goOn { s with db := failSession s.db r.id } (.finalizeUpload r .doom)
    | .error e => reply s rid (.finalizeUpload r) (errorAnswer e)
  | .entry u =>
    ask s rid (.finalizeUpload r) ((finalizeAdmit s.db r u).map fun _ => .finalizeUpload r (.hash u))
  | .hash u =>
    match s.parts r.id with
    | none => reply s rid (.finalizeUpload r) (.error 500 "internal")
    | some b =>
      if b.length = u.declaredBytes then goOn s (.finalizeUpload r (.place u b))
      else reply { s with db := failSession s.db r.id } rid (.finalizeUpload r) (.error 422 "digest_mismatch")
  | .place u hashed =>
    match tempFinalize cfg s.files hashed (s.parts r.id) u.expectedDigest with
    | .ok (files, d) =>
      goOn { s with files := files, parts := assign s.parts r.id none }
        (.finalizeUpload r (.cite u d hashed.length))
    | .error e =>
      -- a digest mismatch aborts the temporary file, the other errors leave it
      reply { s with
          db := failSession s.db r.id
          parts := if e = .mismatch then assign s.parts r.id none else s.parts }
        rid (.finalizeUpload r) (.error 422 "digest_mismatch")
  | .cite u d size => goOn s (.finalizeUpload r (.tx u d size (previewOf s.db r u)))
  | .tx u d size preview =>
    match finalizeTx s r u d size preview s.next with
    | .error x => rollback s rid (.finalizeUpload r) d x
    | .ok (db, a) =>
      ⟨{ s with db := db, next := s.next + 1 },
        [.finalized rid r d, .answered rid (.finalizeUpload r) a], none⟩
  | .doom =>
    reply { s with parts := assign s.parts r.id none } rid (.finalizeUpload r) (.error 413 "quota_exceeded")

/-- Actions of a garbage collection pass. -/
def actGc (blobsEnabled : Bool) (now : Time) : GcStage → Outcome
  | .tombstone => goOn { s with db := tombstoneAttachments s.db } (.gc blobsEnabled now .select)
  | .select => goOn s (.gc blobsEnabled now (.abort (expirable s.db (format now))))
  | .abort [] => goOn s (.gc blobsEnabled now .uploads)
  | .abort (id :: ids) => goOn { s with parts := assign s.parts id none } (.gc blobsEnabled now (.expire id ids))
  | .expire id ids =>
    goOn { s with db := expireSession s.db id (format now) } (.gc blobsEnabled now (.abort ids))
  | .uploads => goOn { s with db := purgeUploads s.db now } (.gc blobsEnabled now .keys)
  | .keys => goOn { s with db := purgeKeys s.db now } (.gc blobsEnabled now .envelopes)
  | .envelopes =>
    goOn { s with db := { s.db with keys := purgeEnvelopes s.db.keys (format now) } } (.gc blobsEnabled now .links)
  | .links =>
    ⟨{ s with db := purgeLinks s.db (format now) }, [],
      if blobsEnabled then some (.gc blobsEnabled now .digests) else none⟩
  | .digests =>
    goOn s (.gc blobsEnabled now (.sweep (sweepList s.db (format (now - cfg.gcRetention)))))
  | .sweep [] => goOn s (.gc blobsEnabled now .unmark)
  | .sweep (d :: ds) =>
    if CanSweep s.db (format (now - cfg.gcRetention)) d then
      goOn { s with db := sweepRows s.db d, files := assign s.files d none } (.gc blobsEnabled now (.sweep ds))
    else goOn s (.gc blobsEnabled now (.sweep ds))
  | .unmark => goOn { s with db := unmarkBlobs s.db } (.gc blobsEnabled now .mark)
  | .mark => ⟨{ s with db := markBlobs s.db (format now) }, [], none⟩

/-- The next action of a request. -/
def act : Job → Outcome
  | .put r st => actPut cfg s rid r st
  | .deleteObject u oid st => actDelete s rid u oid st
  | .comment r st => actComment cfg s rid r st
  | .link u oid att version st => actLink s rid u oid att version st
  | .unlink u oid att st => actUnlink s rid u oid att st
  | .startUpload r st => actStart cfg s rid r st
  | .patchUpload r st => actPatch cfg s rid r st
  | .cancelUpload u id st => actCancel s rid u id st
  | .finalizeUpload r st => actFinalize cfg s rid r st
  | .gc blobsEnabled now st => actGc cfg s blobsEnabled now st

end Act

/-! ## Operations -/

inductive Op
  | key (op : KeyOp)
  | deleteContainer (userId : UserId) (cid : ContainerId) (recent : Bool)
  | createObject (userId : UserId) (cid : ContainerId)
  | resolveConflict (userId : UserId) (id : ConflictId)
  | deleteComment (userId : UserId) (id : CommentId)
  | createShareLink (userId : UserId) (bytes : Nat) (expiresAt : Stamp) (budget : Bool)
  | revokeShareLink (userId : UserId) (id : LinkId)
  | arrive (r : Request)
  | resume (rid : RequestId)
  /-- The request ends without an answer: its client went away, or a statement failed. -/
  | abandon (rid : RequestId)
  /-- The process stops in the middle of an action, of which `n` bytes were written. -/
  | crash (rid : RequestId) (n : Nat)
  | tick (d : Time)

/-- The store after a transaction; an error changes nothing. -/
def commitDb (s : Store) (x : Except Err DB) : Store :=
  match x with
  | .error _ => s
  | .ok db => { s with db := db, next := s.next + 1 }

/-- The database after a key operation, with the advance of the change sequences. -/
def keyDb (op : KeyOp) (s : Store) : Except Err DB :=
  (keyTx op s.db.keys s.next s.clock).map fun k =>
    { s.db with keys := k, pages := bumpSeqs s.db.pages (keySeq op s.db.keys s.next) }

/-- The database after an operation that is one transaction. -/
def txDb (cfg : Config) (s : Store) : Op → Option (Except Err DB)
  | .key op => some (keyDb op s)
  | .deleteContainer u cid recent => some (deleteContainer s.db u cid recent s.now)
  | .createObject u cid => some ((createObject s.db.keys s.db.pages u cid s.next).map fun p => { s.db with pages := p })
  | .resolveConflict u id => some ((resolveConflict s.db u id s.now).map fun p => { s.db with pages := p })
  | .deleteComment u id => some ((deleteComment s.db u id s.now).map fun p => { s.db with pages := p })
  | .createShareLink u n expiresAt budget =>
    some ((createShareLink cfg s.db s.now u s.next n expiresAt budget).map fun t => { s.db with sealedShareLinks := t })
  | .revokeShareLink u id =>
    some ((revokeShareLink s.db u id s.now).map fun t => { s.db with sealedShareLinks := t })
  | _ => none

/-- Every lock of a request is released. -/
def unlock (locks : UploadId → Option RequestId) (rid : RequestId) : UploadId → Option RequestId := fun id =>
  if locks id = some rid then none else locks id

/-- A request leaves. -/
def World.drop (w : World) (rid : RequestId) : World :=
  { w with inflight := w.inflight.delete fun f => f.id = rid, locks := unlock w.locks rid }

/-- A request has another action next. -/
def World.goto (w : World) (rid : RequestId) (j : Job) : World :=
  { w with inflight := w.inflight.update (fun f => f.id = rid) fun f => { f with job := j } }

/-- The world after an action of `rid`. -/
def World.after (w : World) (rid : RequestId) (o : Outcome) : World :=
  match o.next with
  | some j => { w with store := o.store }.goto rid j
  | none => { w with store := o.store }.drop rid

/-- The action of a request in flight. A chunk waits until the lock of its session is free. -/
def World.act (cfg : Config) (w : World) (f : InFlight) : World × List Event :=
  match f.job with
  | .patchUpload r .lock =>
    if w.locks r.id = none then
      ({ w with locks := assign w.locks r.id (some f.id) }.goto f.id (.patchUpload r .read), [])
    else (w, [])
  | j =>
    let o := KyNotes.act cfg w.store f.id j
    (w.after f.id o, o.events)

/-- What a crash in the middle of an action leaves in the files: some bytes of a chunk, or a swept file without the
commit of its rows. -/
def tornFiles (cfg : Config) (s : Store) (f : InFlight) (n : Nat) : Store :=
  match f.job with
  | .patchUpload r (.append received) =>
    match patchAppend (s.parts r.id) received (r.body.take n) with
    | none => s
    | some b => { s with parts := assign s.parts r.id (some b) }
  | .gc _ now (.sweep (d :: _)) =>
    if CanSweep s.db (format (now - cfg.gcRetention)) d then { s with files := assign s.files d none } else s
  | _ => s

/-- One operation. -/
def step (cfg : Config) (w : World) (op : Op) : World × List Event :=
  match op with
  | .arrive r =>
    ({ w with
        store := { w.store with next := w.store.next + 1 }
        inflight := w.inflight.insertOrIgnore ⟨w.store.next, r.start w.store.clock⟩ }, [])
  | .resume rid =>
    match w.inflight.get rid with
    | none => (w, [])
    | some f => w.act cfg f
  | .abandon rid => (w.drop rid, [])
  | .crash rid n =>
    match w.inflight.get rid with
    | none => ({ w with inflight := .empty, locks := fun _ => none }, [])
    | some f => (⟨tornFiles cfg w.store f n, .empty, fun _ => none⟩, [])
  | .tick d => ({ w with store := { w.store with clock := w.store.clock + d } }, [])
  | op =>
    match txDb cfg w.store op with
    | none => (w, [])
    | some x => ({ w with store := commitDb w.store x }, [])

/-- The world after one operation. -/
def World.next (cfg : Config) (w : World) (op : Op) : World := (step cfg w op).1

/-- The world after a list of operations. -/
def World.run (cfg : Config) (w : World) (ops : List Op) : World := Transition.run (World.next cfg) w ops

/-- What a list of operations lets the outside see. -/
def World.trace (cfg : Config) : World → List Op → List Event
  | _, [] => []
  | w, op :: ops => (step cfg w op).2 ++ World.trace cfg (w.next cfg op) ops

/-- The world that a list of operations makes of a new server. -/
def World.reach (cfg : Config) (ops : List Op) : World := World.init.run cfg ops

/-! ## A small installation

What the closed statements of the later modules run on: limits in the size of their bodies, SHA-256 on these bodies, and
one user with a keyed notebook. -/

/-- SHA-256 of the empty body and of the bodies `"a"` and `"b"`. -/
def sampleSha256 (b : Bytes) : Digest :=
  if b = [] then
    [0xe3, 0xb0, 0xc4, 0x42, 0x98, 0xfc, 0x1c, 0x14, 0x9a, 0xfb, 0xf4, 0xc8, 0x99, 0x6f, 0xb9, 0x24,
     0x27, 0xae, 0x41, 0xe4, 0x64, 0x9b, 0x93, 0x4c, 0xa4, 0x95, 0x99, 0x1b, 0x78, 0x52, 0xb8, 0x55]
  else if b = [0x61] then
    [0xca, 0x97, 0x81, 0x12, 0xca, 0x1b, 0xbd, 0xca, 0xfa, 0xc2, 0x31, 0xb3, 0x9a, 0x23, 0xdc, 0x4d,
     0xa7, 0x86, 0xef, 0xf8, 0x14, 0x7c, 0x4e, 0x72, 0xb9, 0x80, 0x77, 0x85, 0xaf, 0xee, 0x48, 0xbb]
  else if b = [0x62] then
    [0x3e, 0x23, 0xe8, 0x16, 0x00, 0x39, 0x59, 0x4a, 0x33, 0x89, 0x4f, 0x65, 0x64, 0xe1, 0xb1, 0x34,
     0x8b, 0xbd, 0x7a, 0x00, 0x88, 0xd4, 0x2c, 0x4a, 0xcb, 0x73, 0xee, 0xae, 0xd5, 0x9c, 0x00, 0x9d]
  else []

/-- Chunks of one byte, an hour for an upload, a day for garbage, no quota. -/
def sampleConfig : Config where
  sha256 := sampleSha256
  objectMaxBytes := 0
  attachmentMaxBytes := 16
  chunkBytes := 1
  uploadTTL := 3600 * second
  userQuotaBytes := 0
  teamQuotaBytes := 0
  gcRetention := day

/-- User 0 with identity 1 creates and keys notebook 2, which is at generation 2 then, and page 4 in it. -/
def sampleSetup : List Op :=
  [.key (.createUser .user .active), .key (.createIdentity 0 true 7), .key (.createContainer 0 .workbook none),
   .key (.rotate 0 true 2 1 [⟨1, 2, .hpkeAuth, some [0]⟩]), .createObject 0 2]

/-- A request arrives and takes its actions with nothing in between; `rid` is the next identifier. -/
def alone (r : Request) (rid : RequestId) (actions : Nat) : List Op := .arrive r :: List.replicate actions (.resume rid)

end KyNotes
