import KyNotes.Server.Change

/-!
# What a committed transaction found and did

One lemma for each transaction on pages and uploads: if it committed, these checks passed and this is the database it
left. Later proofs use these and do not unfold the transactions.
-/

namespace KyNotes

open Relational Check

variable {cfg : Config} {s : Store} {k : KeyTables} {p : PageTables} {db db' : DB} {now : Stamp}

/-! ## Lookups and gates -/

theorem liveContainer_some {cid : ContainerId} {c : Container} (h : liveContainer k cid = some c) :
    k.containers.get cid = some c ∧ c.deletedAt = none := by
  unfold liveContainer at h
  obtain ⟨hc, hd⟩ := Option.filter_eq_some_iff.mp h
  exact ⟨hc, by simpa using hd⟩

theorem liveMember_some {cid : ContainerId} {u : UserId} {m : Membership} (h : liveMember k cid u = some m) :
    k.memberships.get (cid, u) = some m ∧ m.revokedAt = none := by
  unfold liveMember at h
  obtain ⟨hm, hr⟩ := Option.filter_eq_some_iff.mp h
  exact ⟨hm, by simpa using hr⟩

theorem liveObject_some {oid : ObjectId} {o : Object} (h : liveObject p oid = some o) :
    o ∈ p.objects ∧ o.id = oid ∧ o.deletedAt = none := by
  unfold liveObject at h
  obtain ⟨ho, hd⟩ := Option.filter_eq_some_iff.mp h
  exact ⟨Table.get_mem ho, Table.get_key ho, by simpa using hd⟩

/-- A member of a live container, with its current generation. -/
theorem memberTx_ok {cid : ContainerId} {u : UserId} {role : Role} {g : Nat} (h : memberTx k cid u = .ok (role, g)) :
    (∃ m, liveMember k cid u = some m ∧ m.role = role) ∧
      ∃ c, k.containers.get cid = some c ∧ c.deletedAt = none ∧ c.keyGeneration = g := by
  simp only [memberTx, bind_ok, require_ok, fetch_ok, pure_ok, Prod.mk.injEq] at h
  obtain ⟨m, hm, c, hc, _, -, hr, hg⟩ := h
  obtain ⟨hc, hd⟩ := liveContainer_some hc
  exact ⟨⟨m, hm, hr⟩, c, hc, hd, hg⟩

/-- A live member of a live, keyed container. -/
structure Keyed (k : KeyTables) (cid : ContainerId) (u : UserId) (g : Nat) : Prop where
  container : ∃ c, k.containers.get cid = some c ∧ c.deletedAt = none ∧ c.keyGeneration = g ∧ 0 < c.sharedGeneration
  member : ∃ m, liveMember k cid u = some m

theorem checkContainerKeyed_ok {cid : ContainerId} {u : UserId} {scheme : Bool} {g : Nat}
    (h : checkContainerKeyed k cid u scheme = .ok g) : Keyed k cid u g := by
  simp only [checkContainerKeyed, bind_ok, require_ok, fetch_ok, pure_ok] at h
  obtain ⟨c, hc, m, hm, _, -, _, hs, hg⟩ := h
  obtain ⟨hc, hd⟩ := liveContainer_some hc
  exact ⟨⟨c, hc, hd, hg, by omega⟩, m, hm⟩

theorem checkWriteGate_ok {cid : ContainerId} {u : UserId} {g : Nat} {scheme : Bool} {x : Unit}
    (h : checkWriteGate k cid u g scheme = .ok x) : Keyed k cid u g ∧ OwnIdentityEnvelope k u cid g := by
  simp only [checkWriteGate, bind_ok, require_ok] at h
  obtain ⟨g', hk, _, rfl, he⟩ := h
  exact ⟨checkContainerKeyed_ok hk, he⟩

theorem checkUploader_ok {cid : ContainerId} {u : UserId} {scheme : Bool} {x : Unit}
    (h : checkUploader k cid u scheme = .ok x) :
    (∃ g, Keyed k cid u g) ∧ ∃ role, liveRole k cid u = some role ∧ canEdit role := by
  simp only [checkUploader, bind_ok, require_ok, fetch_ok] at h
  obtain ⟨g, hk, role, hr, he⟩ := h
  exact ⟨⟨g, checkContainerKeyed_ok hk⟩, role, hr, he⟩

/-! ## The change sequence -/

section Seq

variable (q : ContainerId → Prop) [DecidablePred q] (cid : ContainerId)

@[simp] theorem bumpSeqs_objects : (bumpSeqs p q).objects = p.objects := rfl
@[simp] theorem bumpSeqs_objectVersions : (bumpSeqs p q).objectVersions = p.objectVersions := rfl
@[simp] theorem bumpSeqs_conflicts : (bumpSeqs p q).conflicts = p.conflicts := rfl
@[simp] theorem bumpSeqs_comments : (bumpSeqs p q).comments = p.comments := rfl
@[simp] theorem bumpSeqs_attachments : (bumpSeqs p q).attachments = p.attachments := rfl
@[simp] theorem bumpSeqs_attachmentRefs : (bumpSeqs p q).attachmentRefs = p.attachmentRefs := rfl
@[simp] theorem bumpSeqs_idempotencyKeys : (bumpSeqs p q).idempotencyKeys = p.idempotencyKeys := rfl
@[simp] theorem bumpSeq_objects : (bumpSeq p cid).objects = p.objects := rfl
@[simp] theorem bumpSeq_objectVersions : (bumpSeq p cid).objectVersions = p.objectVersions := rfl
@[simp] theorem bumpSeq_conflicts : (bumpSeq p cid).conflicts = p.conflicts := rfl
@[simp] theorem bumpSeq_comments : (bumpSeq p cid).comments = p.comments := rfl
@[simp] theorem bumpSeq_attachments : (bumpSeq p cid).attachments = p.attachments := rfl
@[simp] theorem bumpSeq_attachmentRefs : (bumpSeq p cid).attachmentRefs = p.attachmentRefs := rfl
@[simp] theorem bumpSeq_idempotencyKeys : (bumpSeq p cid).idempotencyKeys = p.idempotencyKeys := rfl

@[simp] theorem bumpSeq_same : (bumpSeq p cid).changeSeq cid = p.changeSeq cid + 1 := by simp [bumpSeq, bumpSeqs]

theorem le_bumpSeqs (c : ContainerId) : p.changeSeq c ≤ (bumpSeqs p q).changeSeq c := by
  simp only [bumpSeqs]
  split
  · exact Nat.le_succ _
  · exact Nat.le_refl _

end Seq

/-! ## Blobs -/

/-- The claimed digest has its file and an unmarked row; the other rows are as they were. -/
theorem claimBlob_ok {blobs t : Table Blob.digest} {files : Files} {d : Digest} {size : Nat}
    (h : claimBlob blobs files d size = .ok t) :
    (files d).isSome ∧
      t = (blobs.insertOrIgnore ⟨d, size, none⟩).update (fun b => b.digest = d) fun b =>
        { b with unreferencedSince := none } := by
  simp only [claimBlob, bind_ok, require_ok, pure_ok] at h
  obtain ⟨_, hf, rfl⟩ := h
  exact ⟨hf, rfl⟩

/-- A claim keeps every row, and adds one for its digest. -/
theorem claimBlob_get {blobs t : Table Blob.digest} {files : Files} {d : Digest} {size : Nat}
    (h : claimBlob blobs files d size = .ok t) (x : Digest) :
    (t.get x).isSome ↔ (blobs.get x).isSome ∨ x = d := by
  obtain ⟨-, rfl⟩ := claimBlob_ok h
  rw [Table.get_update, Option.isSome_map, Table.get_insertOrIgnore]
  by_cases hx : d = x
  · subst hx; simp
  · have : ¬x = d := fun e => hx e.symm
    simp [hx, this]

/-! ## Saves -/

theorem recordKey_ok {r : PutReq} {id code : Nat} {v : Nat} {p' : PageTables}
    (h : recordKey p r id code now v = .ok p') :
    ∃ i, p' = { p with idempotencyKeys := i } ∧
      ((r.key = none ∧ i = p.idempotencyKeys) ∨
        ∃ key, r.key = some key ∧ p.idempotencyKeys.insert ⟨key, id, code, now, v⟩ = some i) := by
  unfold recordKey at h
  split at h
  · cases h
    exact ⟨p.idempotencyKeys, rfl, Or.inl ⟨‹_›, rfl⟩⟩
  · rename_i key hk
    simp only [bind_ok, fetch_ok, pure_ok] at h
    obtain ⟨i, hi, rfl⟩ := h
    exact ⟨i, rfl, Or.inr ⟨key, hk, hi⟩⟩

/-- What a save stores besides its row: the key of the request, if it carries one. -/
def KeyRecorded (p : PageTables) (r : PutReq) (id code : Nat) (now : Stamp) (v : Nat) (i : Table IdempotencyKey.key) :
    Prop :=
  (r.key = none ∧ i = p.idempotencyKeys) ∨
    ∃ key, r.key = some key ∧ p.idempotencyKeys.insert ⟨key, id, code, now, v⟩ = some i

/-- The conflict a save stores. -/
def PutReq.conflictRow (r : PutReq) (p : PageTables) (cid : ContainerId) (d : Digest) (live : Nat) (id : ConflictId) :
    Conflict :=
  ⟨id, r.objectId, cid, r.base.getD 0, live, d, r.body.length, r.generation, p.changeSeq cid + 1, none⟩

/-- The version a save stores. -/
def PutReq.versionRow (r : PutReq) (p : PageTables) (cid : ContainerId) (d : Digest) (live : Nat) : ObjectVersion :=
  ⟨r.objectId, live + 1, d, r.body.length, r.generation, r.base.getD 0, p.changeSeq cid + 1, r.userId⟩

/-- The pages after a save that stored a conflict. -/
def PutReq.afterConflict (p : PageTables) (cid : ContainerId) (t : Table Conflict.id) (i : Table IdempotencyKey.key) :
    PageTables :=
  { bumpSeq p cid with conflicts := t, idempotencyKeys := i }

/-- The pages after a save that stored a version. -/
def PutReq.afterVersion (r : PutReq) (p : PageTables) (cid : ContainerId) (live : Nat) (t : Table ObjectVersion.key)
    (i : Table IdempotencyKey.key) : PageTables :=
  { bumpSeq p cid with
    objectVersions := t
    objects := p.objects.update (fun o => o.id = r.objectId) fun o =>
      { o with currentVersion := live + 1, changeSeq := p.changeSeq cid + 1, routing := r.routing.getD [] }
    idempotencyKeys := i }

/-- What a save's transaction checked. -/
structure PutGate (cfg : Config) (s : Store) (r : PutReq) (cid : ContainerId) (o : Object) : Prop where
  gate : Keyed s.db.keys cid r.userId r.generation
  envelope : OwnIdentityEnvelope s.db.keys r.userId cid r.generation
  fresh : r.replay s.db.pages = none
  quota : checkQuota cfg s.db s.now cid none r.body.length = .ok ()
  object : liveObject s.db.pages r.objectId = some o

theorem putGate_ok {r : PutReq} {cid : ContainerId} {live : Nat}
    (h : putGate cfg s.db s.now r cid r.body.length = .ok live) :
    ∃ o, PutGate cfg s r cid o ∧ o.currentVersion = live := by
  simp only [putGate, bind_ok, require_ok, fetch_ok, mapError_ok] at h
  obtain ⟨_, hg, role, -, _, -, h⟩ := h
  obtain ⟨hk, he⟩ := checkWriteGate_ok hg
  split at h
  · cases h
  · rename_i hr
    simp only [bind_ok, fetch_ok, mapError_ok, pure_ok] at h
    obtain ⟨⟨⟩, hq, o, ho, rfl⟩ := h
    exact ⟨o, ⟨hk, he, hr, hq, ho⟩, rfl⟩

/-- A committed save: its checks passed, its digest is claimed, and it stored a version over the current one or else a
conflict. -/
theorem putTx_ok {r : PutReq} {cid : ContainerId} {d : Digest} {id : ConflictId} {row : SavedRow}
    (h : putTx cfg s r cid d id = .ok (db, row)) :
    ∃ o blobs pages, PutGate cfg s r cid o ∧ claimBlob s.db.blobs s.files d r.body.length = .ok blobs ∧
      db = { s.db with pages := pages, blobs := blobs } ∧
      ((r.base.getD 0 ≠ o.currentVersion ∧ row = .conflict (r.conflictRow s.db.pages cid d o.currentVersion id) ∧
          ∃ t i, s.db.pages.conflicts.insert (r.conflictRow s.db.pages cid d o.currentVersion id) = some t ∧
            KeyRecorded s.db.pages r id 409 s.now o.currentVersion i ∧
            pages = PutReq.afterConflict s.db.pages cid t i) ∨
        (r.base.getD 0 = o.currentVersion ∧ row = .version (r.versionRow s.db.pages cid d o.currentVersion) ∧
          ∃ t i, s.db.pages.objectVersions.insert (r.versionRow s.db.pages cid d o.currentVersion) = some t ∧
            KeyRecorded s.db.pages r r.objectId 200 s.now (o.currentVersion + 1) i ∧
            pages = r.afterVersion s.db.pages cid o.currentVersion t i)) := by
  simp only [putTx, bind_ok, mapError_ok] at h
  obtain ⟨live, hg, blobs, hb, h⟩ := h
  obtain ⟨o, ho, rfl⟩ := putGate_ok hg
  split at h
  · rename_i hne
    simp only [putConflict, bind_ok, fetch_ok, pure_ok, Prod.mk.injEq, bumpSeq_same] at h
    obtain ⟨_, ⟨t, ht, p₂, hk, rfl⟩, rfl, rfl⟩ := h
    obtain ⟨i, rfl, hi⟩ := recordKey_ok hk
    exact ⟨o, blobs, _, ho, hb, rfl, Or.inl ⟨hne, rfl, t, i, ht, hi, rfl⟩⟩
  · rename_i he
    simp only [putVersion, bind_ok, fetch_ok, pure_ok, Prod.mk.injEq, bumpSeq_same] at h
    obtain ⟨_, ⟨t, ht, p₂, hk, rfl⟩, rfl, rfl⟩ := h
    obtain ⟨i, rfl, hi⟩ := recordKey_ok hk
    exact ⟨o, blobs, _, ho, hb, rfl, Or.inr ⟨Decidable.not_not.mp he, rfl, t, i, ht, hi, rfl⟩⟩

/-! ## The other transactions on pages -/

theorem createObject_ok {u : UserId} {cid : ContainerId} {id : ObjectId} {p' : PageTables}
    (h : createObject k p u cid id = .ok p') :
    (∃ c, k.containers.get cid = some c ∧ c.deletedAt = none) ∧
      ∃ t, p.objects.insert ⟨id, cid, 0, p.changeSeq cid + 1, [], none⟩ = some t ∧
        p' = { bumpSeq p cid with objects := t } := by
  simp only [createObject, bind_ok, require_ok, fetch_ok, pure_ok, bumpSeq_same] at h
  obtain ⟨⟨role, g⟩, hm, _, -, t, ht, rfl⟩ := h
  obtain ⟨-, c, hc, hd, -⟩ := memberTx_ok hm
  exact ⟨⟨c, hc, hd⟩, t, ht, rfl⟩

theorem resolveConflict_ok {u : UserId} {id : ConflictId} {p' : PageTables}
    (h : resolveConflict db u id now = .ok p') :
    ∃ c ∈ db.pages.conflicts, c.id = id ∧ p' = { bumpSeq db.pages c.containerId with
      conflicts := db.pages.conflicts.update (fun x => x.id = id) fun x =>
        { x with resolvedAt := some now, changeSeq := db.pages.changeSeq c.containerId + 1 } } := by
  simp only [resolveConflict, bind_ok, require_ok, fetch_ok, pure_ok, bumpSeq_same] at h
  obtain ⟨c, hc, role, -, _, -, rfl⟩ := h
  exact ⟨c, Table.get_mem hc, Table.get_key hc, rfl⟩

theorem deleteComment_ok {u : UserId} {id : CommentId} {p' : PageTables} (h : deleteComment db u id now = .ok p') :
    p' = db.pages ∨ ∃ c ∈ db.pages.comments, c.id = id ∧ p' = { bumpSeq db.pages c.containerId with
      comments := db.pages.comments.update (fun x => x.id = id) fun x =>
        { x with deletedAt := some now, bodyBytes := 0, changeSeq := db.pages.changeSeq c.containerId + 1 } } := by
  simp only [deleteComment, bind_ok, require_ok, fetch_ok] at h
  obtain ⟨c, hc, _, -, _, -, _, -, _, -, h⟩ := h
  split at h
  · simp only [pure_ok, bumpSeq_same] at h
    exact Or.inr ⟨c, Table.get_mem hc, Table.get_key hc, h.symm⟩
  · simp only [pure_ok] at h
    exact Or.inl h.symm

/-- The comment a request stores. -/
def CommentReq.row (r : CommentReq) (p : PageTables) (cid : ContainerId) (id : CommentId) : Comment :=
  ⟨id, cid, r.objectId, r.userId, r.bodyBytes, r.generation, p.changeSeq cid + 1, none⟩

theorem commentTx_ok {r : CommentReq} {cid : ContainerId} {id : CommentId} {p' : PageTables}
    (h : commentTx cfg db now r cid id = .ok p') :
    Keyed db.keys cid r.userId r.generation ∧ OwnIdentityEnvelope db.keys r.userId cid r.generation ∧
      (∃ o, liveObject db.pages r.objectId = some o) ∧ checkQuota cfg db now cid none r.bodyBytes = .ok () ∧
      ∃ t, db.pages.comments.insert (r.row db.pages cid id) = some t ∧
        p' = { bumpSeq db.pages cid with comments := t } := by
  simp only [commentTx, bind_ok, require_ok, fetch_ok, pure_ok, bumpSeq_same] at h
  obtain ⟨_, hg, o, ho, ⟨⟩, hq, t, ht, _, -, _, -, rfl⟩ := h
  obtain ⟨hk, he⟩ := checkWriteGate_ok hg
  exact ⟨hk, he, ⟨o, ho⟩, hq, t, ht, rfl⟩

theorem linkTx_ok {cid : ContainerId} {oid : ObjectId} {att : AttachmentId} {version : Int} {p' : PageTables}
    (h : linkTx p cid oid att version = .ok p') :
    ∃ a ∈ p.attachments, a.id = att ∧ a.deletedAt = none ∧
      p' = { p with attachmentRefs := p.attachmentRefs.insertOrIgnore ⟨att, oid, version⟩ } := by
  simp only [linkTx, bind_ok, fetch_ok, pure_ok] at h
  obtain ⟨a, ha, o, -, rfl⟩ := h
  obtain ⟨ha, hp⟩ := Option.filter_eq_some_iff.mp ha
  simp only [decide_eq_true_eq] at hp
  exact ⟨a, Table.get_mem ha, Table.get_key ha, hp.2, rfl⟩

/-- The database after a container deletion. -/
def afterDelete (db : DB) (cid : ContainerId) (now : Stamp) : DB :=
  { db with
    keys := tombstoneContainers db.keys cid now
    pages := bumpSeqs (clearPages db.pages db.keys cid now) (InLiveScope db.keys cid)
    uploadSessions := db.uploadSessions.update (fun u => u.status = .pending ∧ InScope db.keys cid u.containerId)
      fun u => { u with status := .failed, updatedAt := now } }

theorem deleteContainer_ok {u : UserId} {cid : ContainerId} {recent : Bool}
    (h : deleteContainer db u cid recent now = .ok db') : db' = afterDelete db cid now := by
  simp only [deleteContainer, bind_ok, require_ok, fetch_ok, pure_ok] at h
  obtain ⟨_, -, _, -, _, -, _, -, rfl⟩ := h
  rfl

theorem createShareLink_ok {u : UserId} {id : LinkId} {n : Nat} {expiresAt : Stamp} {budget : Bool}
    {t : Table SealedShareLink.id} (h : createShareLink cfg db now u id n expiresAt budget = .ok t) :
    ∃ x, db.keys.users.get u = some x ∧ userQuotaExceeded cfg db now x none n = false ∧
      db.sealedShareLinks.insert ⟨id, u, n, expiresAt, none⟩ = some t := by
  simp only [createShareLink, bind_ok, require_ok, fetch_ok, pure_ok] at h
  obtain ⟨x, hx, _, hq, t', ht, _, -, rfl⟩ := h
  exact ⟨x, hx, hq, ht⟩

theorem revokeShareLink_ok {u : UserId} {id : LinkId} {t : Table SealedShareLink.id}
    (h : revokeShareLink db u id now = .ok t) :
    t = db.sealedShareLinks.update (fun l => l.id = id) fun l => { l with revokedAt := some now } := by
  simp only [revokeShareLink, bind_ok, require_ok, pure_ok] at h
  obtain ⟨_, -, rfl⟩ := h
  rfl

/-! ## Uploads -/

theorem startTx_ok {r : StartReq} {id : UploadId} (h : startTx cfg s r id = .ok db) :
    (∃ g, Keyed s.db.keys r.containerId r.userId g) ∧
      ∃ t, s.db.uploadSessions.insert (newSession cfg s.clock r id) = some t ∧
        db = { s.db with uploadSessions := t } := by
  simp only [startTx, bind_ok, fetch_ok, pure_ok] at h
  obtain ⟨_, hu, t, ht, rfl⟩ := h
  exact ⟨(checkUploader_ok hu).1, t, ht, rfl⟩

/-- The attachment a finalize stores. -/
def FinalizeReq.row (r : FinalizeReq) (p : PageTables) (cid : ContainerId) (d : Digest) (size : Nat)
    (preview : Option Digest) (id : AttachmentId) : Attachment :=
  ⟨id, cid, d, preview, size, r.generation, p.changeSeq cid + 1, none⟩

theorem attachmentOf_some {cid : ContainerId} {d : Digest} {a : Attachment} (h : attachmentOf p cid d = some a) :
    a ∈ p.attachments ∧ a.containerId = cid ∧ a.blobDigest = d := by
  have hp := List.find?_some h
  simp only [decide_eq_true_eq] at hp
  exact ⟨List.mem_of_find?_eq_some h, hp.1, hp.2⟩

/-- The pages after a finalize: the attachment of the same bytes is live again, or there is a new one. -/
theorem placeAttachment_ok {r : FinalizeReq} {cid : ContainerId} {d : Digest} {preview : Option Digest} {size : Nat}
    {id att : AttachmentId} {p' : PageTables}
    (h : placeAttachment p cid d preview size r.generation id = .ok (p', att)) :
    (∃ a, attachmentOf p cid d = some a ∧ att = a.id ∧
      p' = { bumpSeq p cid with
        attachments := p.attachments.update (fun x => x.id = a.id) fun x => { x with deletedAt := none } }) ∨
    (attachmentOf p cid d = none ∧ att = id ∧
      ∃ t, p.attachments.insert (r.row p cid d size preview id) = some t ∧
        p' = { bumpSeq p cid with attachments := t }) := by
  unfold placeAttachment at h
  simp only at h
  split at h
  · rename_i a ha
    cases h
    exact Or.inl ⟨a, ha, rfl, rfl⟩
  · rename_i ha
    simp only [bind_ok, fetch_ok, pure_ok, Prod.mk.injEq, bumpSeq_same] at h
    obtain ⟨t, ht, rfl, rfl⟩ := h
    exact Or.inr ⟨ha, rfl, t, ht, rfl⟩

/-- What a finalize's transaction checked and left, but for the pages. -/
structure Finalized (s : Store) (r : FinalizeReq) (u : UploadSession) (d : Digest) (size : Nat) (db : DB) : Prop where
  keyed : ∃ g, Keyed s.db.keys u.containerId r.userId g
  blobs : claimBlob s.db.blobs s.files d size = .ok db.blobs
  sessions : db.uploadSessions = finishSession s.db.uploadSessions r.id d s.now
  keys : db.keys = s.db.keys
  links : db.sealedShareLinks = s.db.sealedShareLinks

theorem finalizePreviewTx_ok {r : FinalizeReq} {u : UploadSession} {d : Digest} {size : Nat} {a : Answer}
    (h : finalizePreviewTx s r u d size = .ok (db, a)) :
    Finalized s r u d size db ∧ db.pages = s.db.pages ∧ a = .preview d size := by
  simp only [finalizePreviewTx, bind_ok, mapError_ok, pure_ok, Prod.mk.injEq] at h
  obtain ⟨_, hu, blobs, hb, rfl, rfl⟩ := h
  exact ⟨⟨(checkUploader_ok hu).1, hb, rfl, rfl, rfl⟩, rfl, rfl⟩

theorem finalizeAttachmentTx_ok {r : FinalizeReq} {u : UploadSession} {d : Digest} {size : Nat}
    {preview : Option Digest} {id : AttachmentId} {a : Answer}
    (h : finalizeAttachmentTx s r u d size preview id = .ok (db, a)) :
    Finalized s r u d size db ∧ Keyed s.db.keys u.containerId r.userId r.generation ∧
      OwnIdentityEnvelope s.db.keys r.userId u.containerId r.generation ∧
      ∃ att, a = .attachment att d size ∧
        placeAttachment s.db.pages u.containerId d preview size r.generation id = .ok (db.pages, att) := by
  simp only [finalizeAttachmentTx, bind_ok, mapError_ok, pure_ok, Prod.mk.injEq] at h
  obtain ⟨_, hg, _, hu, blobs, hb, ⟨pages, att⟩, hp, rfl, rfl⟩ := h
  obtain ⟨hk, he⟩ := checkWriteGate_ok hg
  exact ⟨⟨(checkUploader_ok hu).1, hb, rfl, rfl, rfl⟩, hk, he, att, rfl, hp⟩

/-- A committed finalize. -/
theorem finalizeTx_ok {r : FinalizeReq} {u : UploadSession} {d : Digest} {size : Nat} {preview : Option Digest}
    {id : AttachmentId} {a : Answer} (h : finalizeTx s r u d size preview id = .ok (db, a)) :
    Finalized s r u d size db ∧
      ((u.kind = .preview ∧ db.pages = s.db.pages ∧ a = .preview d size) ∨
        (u.kind = .attachment ∧ Keyed s.db.keys u.containerId r.userId r.generation ∧
          OwnIdentityEnvelope s.db.keys r.userId u.containerId r.generation ∧
          ∃ att, a = .attachment att d size ∧
            placeAttachment s.db.pages u.containerId d preview size r.generation id = .ok (db.pages, att))) := by
  unfold finalizeTx at h
  split at h
  · rename_i hk
    obtain ⟨hf, hp, ha⟩ := finalizePreviewTx_ok h
    exact ⟨hf, Or.inl ⟨hk, hp, ha⟩⟩
  · rename_i hk
    obtain ⟨hf, hg, he, hp⟩ := finalizeAttachmentTx_ok h
    exact ⟨hf, Or.inr ⟨hk, hg, he, hp⟩⟩

/-! ## Files -/

/-- `Finalize` leaves the file of the digest in place and no other file touched. -/
theorem tempFinalize_ok {files files' : Files} {hashed : Bytes} {held : Option Bytes} {expected : Option Digest}
    {d : Digest} (h : tempFinalize cfg files hashed held expected = .ok (files', d)) :
    d = cfg.sha256 hashed ∧ (expected = none ∨ expected = some d) ∧
      ((∃ old, files d = some old ∧ cfg.sha256 old = d ∧ old.length = hashed.length ∧ files' = files) ∨
        ∃ b, held = some b ∧ files d = none ∧ files' = assign files d (some b)) := by
  unfold tempFinalize at h
  simp only at h
  split at h
  · cases h
  · rename_i he
    have hexp : expected = none ∨ expected = some (cfg.sha256 hashed) := by
      by_cases hn : expected = none
      · exact Or.inl hn
      · exact Or.inr (not_not.mp fun hs => he ⟨hn, hs⟩)
    split at h
    · rename_i old ho
      split at h
      · rename_i hv
        cases h
        exact ⟨rfl, hexp, Or.inl ⟨old, ho, hv.2, hv.1, rfl⟩⟩
      · cases h
    · rename_i ho
      split at h
      · rename_i b
        cases h
        exact ⟨rfl, hexp, Or.inr ⟨b, rfl, ho, rfl⟩⟩
      · cases h

end KyNotes
