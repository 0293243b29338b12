import KyNotes.Lib.Base64Url
import KyNotes.Pages.Replay
import KyNotes.Cleanup.Reservations

/-!
# Share links (`share_link_routes.go`)

A sealed link is a ciphertext under the hash of a token; the server forgets the token when it has told its maker. The
row of a link is split: `DB.sealedShareLinks` has what the quota, the revocation and garbage collection read, `Secret`
has the other columns. `System` is the server with both link tables, and its operations are those of the server with
the two ways to make a link.

* `links_next`: what an operation of the server does to the sealed links.
* `System.create_cases`: what `POST /share-links` does.
* `Filed` and `Kept`: the rows are the links that the run has made, and the links that live have their rows.
* `sealed_links_open`: a token opens a ciphertext, and its maker is shown the link, from the moment it is made until it
  expires or its maker revokes it, through any run of the server.
-/

namespace KyNotes

open Relational Transition Check

variable {cfg : Config} {w : World}

/-! ## What the server does to its sealed links -/

/-- The operations of the server that make no sealed link. -/
def Op.makesLink : Op → Bool
  | .createShareLink .. => true
  | _ => false

/-- Only a garbage collection pass changes the links in an action. -/
theorem act_links (cfg : Config) (s : Store) (rid : RequestId) {j : Job} (h : ∀ b now st, j ≠ .gc b now st) :
    (act cfg s rid j).store.db.sealedShareLinks = s.db.sealedShareLinks := by
  cases j with
  | put r st =>
    cases st with
    | entry | check => simp only [act, actPut, ask_store]
    | place cid =>
      simp only [act, actPut]
      split <;> rfl
    | tx cid d =>
      simp only [act, actPut]
      split
      · unfold rollback reply
        split <;> rfl
      · rename_i hput
        obtain ⟨o, blobs, pages, -, -, rfl, -⟩ := putTx_ok hput
        rfl
  | deleteObject u oid st =>
    cases st with
    | entry => simp only [act, actDelete, ask_store]
    | tx cid => rfl
  | comment r st =>
    cases st with
    | entry => simp only [act, actComment, ask_store]
    | tx cid =>
      simp only [act, actComment]
      cases commentTx cfg s.db s.now r cid s.next <;> rfl
  | link u oid att version st =>
    cases st with
    | entry => simp only [act, actLink, ask_store]
    | tx cid =>
      simp only [act, actLink]
      cases linkTx s.db.pages cid oid att version <;> rfl
  | unlink u oid att st =>
    cases st with
    | entry => simp only [act, actUnlink, ask_store]
    | tx cid => rfl
  | startUpload r st =>
    cases st with
    | entry => simp only [act, actStart, ask_store]
    | tx =>
      simp only [act, actStart]
      split
      · rfl
      · rename_i hstart
        obtain ⟨-, t, -, rfl⟩ := startTx_ok hstart
        rfl
    | temp id expiresAt => rfl
  | patchUpload r st =>
    cases st with
    | entry => simp only [act, actPatch, ask_store]
    | read | append received =>
      simp only [act, actPatch]
      split <;> rfl
    | lock | count received | doom => rfl
  | cancelUpload u id st =>
    cases st with
    | entry =>
      simp only [act, actCancel]
      split <;> rfl
    | abort | tx => rfl
  | finalizeUpload r st =>
    cases st with
    | read | entry u => simp only [act, actFinalize, ask_store]
    | charge u =>
      simp only [act, actFinalize]
      split <;> rfl
    | hash u =>
      simp only [act, actFinalize]
      split
      · rfl
      · split <;> rfl
    | place u hashed =>
      simp only [act, actFinalize]
      split <;> rfl
    | cite u d size | doom => rfl
    | tx u d size preview =>
      simp only [act, actFinalize]
      split
      · unfold rollback reply
        split <;> rfl
      · rename_i hfinalize
        exact (finalizeTx_ok hfinalize).1.links
  | gc b now st => exact absurd rfl (h b now st)

/-- A garbage collection pass deletes the links that had expired when it began, and the revoked ones. -/
theorem actGc_links (cfg : Config) (s : Store) (b : Bool) (now : Time) (st : GcStage) :
    (actGc cfg s b now st).store.db.sealedShareLinks = s.db.sealedShareLinks ∨
      (actGc cfg s b now st).store.db.sealedShareLinks =
        s.db.sealedShareLinks.delete fun l => l.expiresAt ≤ format now ∨ l.revokedAt ≠ none := by
  cases st with
  | links => exact .inr rfl
  | abort ids => cases ids <;> exact .inl rfl
  | sweep ds =>
    cases ds with
    | nil => exact .inl rfl
    | cons d ds =>
      simp only [actGc]
      split <;> exact .inl rfl
  | tombstone | select | expire | uploads | keys | envelopes | digests | unmark | mark => exact .inl rfl

/-- An operation that is one transaction. -/
theorem next_tx (cfg : Config) (w : World) {op : Op} {x : Except Err DB} (h : txDb cfg w.store op = some x) :
    (w.next cfg op).store = commitDb w.store x := by
  cases op
  case arrive | resume | abandon | crash | tick => cases h
  all_goals
    unfold World.next
    simp only [step, h]

/-- A request waits, or takes the action of its job. -/
theorem resume_store (cfg : Config) (w : World) (rid : RequestId) : (w.next cfg (.resume rid)).store = w.store ∨
    ∃ j, w.job rid = some j ∧ (w.next cfg (.resume rid)).store = (act cfg w.store rid j).store := by
  cases hj : w.job rid with
  | none =>
    refine .inl ?_
    rw [World.job, Option.map_eq_none_iff] at hj
    unfold World.next
    simp only [step, hj]
  | some j =>
    by_cases hl : ∃ r, j = .patchUpload r .lock
    · obtain ⟨r, rfl⟩ := hl
      refine .inl ?_
      obtain ⟨f, hf, hfj⟩ := Option.map_eq_some_iff.mp hj
      unfold World.next
      simp only [step, hf, World.act, hfj]
      split <;> rfl
    · exact .inr ⟨j, rfl, (step_resume cfg hj fun r hr => hl ⟨r, hr⟩).1⟩

/-- The sealed links after an operation that makes none: as they were, without some that had expired or were revoked, or
with one revoked by its owner. -/
theorem links_next (cfg : Config) (hb : ∀ f ∈ w.inflight, Begun w.store f.job) {op : Op} (hop : op.makesLink = false) :
    (w.next cfg op).store.db.sealedShareLinks = w.store.db.sealedShareLinks ∨
      (∃ t ≤ w.store.now, (w.next cfg op).store.db.sealedShareLinks =
        w.store.db.sealedShareLinks.delete fun l => l.expiresAt ≤ t ∨ l.revokedAt ≠ none) ∨
      ∃ u id, op = .revokeShareLink u id ∧
        (∃ l ∈ w.store.db.sealedShareLinks, l.id = id ∧ l.ownerUserId = u ∧ l.revokedAt = none) ∧
        (w.next cfg op).store.db.sealedShareLinks =
          w.store.db.sealedShareLinks.update (fun l => l.id = id) fun l => { l with revokedAt := some w.store.now } := by
  cases op with
  | resume rid =>
    obtain hs | ⟨j, hj, hs⟩ := resume_store cfg w rid
    · exact .inl (by rw [hs])
    · rw [hs]
      by_cases hgc : ∃ b now st, j = .gc b now st
      · obtain ⟨b, now, st, rfl⟩ := hgc
        obtain h | h := actGc_links cfg w.store b now st
        · exact .inl h
        · exact .inr (.inl ⟨format now, format_mono (hb _ (World.job_mem hj) b now st rfl), h⟩)
      · exact .inl (act_links cfg w.store rid fun b now st hj => hgc ⟨b, now, st, hj⟩)
  | revokeShareLink u id =>
    rw [next_tx cfg w rfl]
    cases h : revokeShareLink w.store.db u id w.store.now with
    | error e => exact .inl rfl
    | ok t =>
      simp only [revokeShareLink, bind_ok, require_ok, pure_ok] at h
      obtain ⟨_, hrow, rfl⟩ := h
      exact .inr (.inr ⟨u, id, rfl, hrow, rfl⟩)
  | createShareLink => cases hop
  | key op =>
    rw [next_tx cfg w rfl]
    unfold keyDb
    cases keyTx op w.store.db.keys w.store.next w.store.clock <;> exact .inl rfl
  | deleteContainer u cid recent =>
    rw [next_tx cfg w rfl]
    cases h : deleteContainer w.store.db u cid recent w.store.now with
    | error e => exact .inl rfl
    | ok db =>
      rw [deleteContainer_ok h]
      exact .inl rfl
  | createObject u cid =>
    rw [next_tx cfg w rfl]
    cases createObject w.store.db.keys w.store.db.pages u cid w.store.next <;> exact .inl rfl
  | resolveConflict u id =>
    rw [next_tx cfg w rfl]
    cases resolveConflict w.store.db u id w.store.now <;> exact .inl rfl
  | deleteComment u id =>
    rw [next_tx cfg w rfl]
    cases deleteComment w.store.db u id w.store.now <;> exact .inl rfl
  | crash rid n =>
    refine .inl ?_
    unfold World.next
    simp only [step]
    split
    · rfl
    · unfold tornFiles
      split
      · split <;> rfl
      · split <;> rfl
      · rfl
  | arrive | abandon | tick => exact .inl rfl

namespace Shares

/-! ## Both kinds of links -/

/-- `MaxShareLinkLifetime`. -/
def maxShareLinkLifetime : Time := 30 * day

/-- What `rand.Read` fills. -/
abbrev TokenBytes := { b : Bytes // b.length = 32 }

/-- The token of a link, in the alphabet of URLs. -/
def tokenText (random : TokenBytes) : Bytes := (Base64.encodeRawUrl random.1).map fun c => UInt8.ofNat c.toNat

/-- The columns of a sealed link that `SealedShareLink` leaves out. -/
structure Secret where
  id : LinkId
  tokenHash : Digest
  ciphertext : Bytes
  createdAt : Stamp
deriving DecidableEq

/-- A row of `share_links`. No statement of the program sets its `revoked_at`. -/
structure ObjectLink where
  tokenHash : Digest
  id : LinkId
  objectId : ObjectId
  objectVersion : Nat
  expiresAt : Stamp
  createdAt : Stamp
deriving DecidableEq

structure System where
  world : World
  secrets : Table Secret.id
  objectLinks : Table ObjectLink.tokenHash
  nextObjectLink : LinkId

def System.init : System := ⟨World.init, .empty, .empty, 0⟩

/-- The sealed links of the database. -/
abbrev System.links (s : System) : Table SealedShareLink.id := s.world.store.db.sealedShareLinks

/-- The rows of `sealed_share_links` with all their columns. -/
def System.sealedRows (s : System) : List (SealedShareLink × Secret) :=
  s.links.rows.filterMap fun l => (s.secrets.get l.id).map fun x => (l, x)

/-- `UNIQUE` on `token_hash`. -/
def System.Taken (s : System) (hash : Digest) : Prop := ∃ row ∈ s.sealedRows, row.2.tokenHash = hash

instance (s : System) (hash : Digest) : Decidable (s.Taken hash) :=
  inferInstanceAs (Decidable (∃ row ∈ s.sealedRows, row.2.tokenHash = hash))

/-! ## Making a link -/

inductive Reply
  | error (status : Nat) (code message : String)
  | created (id : LinkId) (token : Bytes) (expiresAt : Stamp)
  | createdObject (id : LinkId) (token : Bytes) (expiresAt : Stamp) (receipt : Receipt)
deriving DecidableEq

/-- The answer to a transaction's error. -/
def txError : Err → Reply
  | .quota => .error 413 "quota_exceeded" "quota exceeded"
  | .storageFull => .error 507 "storage_full"
    "The server's backup storage budget is full. Delete unneeded comments or revoke share links, then try again."
  | _ => .error 500 "internal" "internal server error"

def invalidRequest (message : String) : Reply := .error 400 "invalid_request" message

/-- `POST /share-links`. -/
structure CreateReq where
  userId : UserId
  /-- The length of the JSON value; more than the limit of the reader is cut off, and refused. -/
  bodyBytes : Nat
  ciphertext : List UInt16
  /-- `none`: no time in RFC 3339. -/
  expiresAt : Option Time
  random : TokenBytes
  /-- `checkDatabaseBudget` passes. -/
  budget : Bool

def CreateReq.token (r : CreateReq) : Bytes := tokenText r.random

/-- The expiry is in the future, and at most thirty days away. -/
def CreateReq.expiry (r : CreateReq) (clock : Time) : Option Time :=
  r.expiresAt.filter fun t => clock < t ∧ t ≤ clock + maxShareLinkLifetime

/-- The sealed bytes: a nonce and a tag at least. -/
def CreateReq.sealed (r : CreateReq) : Option Bytes :=
  (Base64.decodeRawUrl r.ciphertext).filter fun b => 16 ≤ b.length ∧ b.length ≤ 12 * 1024 * 1024

/-- What the handler checks before its transaction. -/
def CreateReq.check (r : CreateReq) (clock : Time) : Except Reply (Bytes × Time) :=
  if 16 * 1024 * 1024 < r.bodyBytes then .error (invalidRequest "invalid request")
  else match r.expiry clock with
    | none => .error (invalidRequest "invalid expiry: a share link lasts at most 30 days")
    | some expires =>
      match r.sealed with
      | none => .error (invalidRequest "invalid ciphertext")
      | some b => .ok (b, expires)

/-- The transaction: the quota is read before the row is written, and the budget after it. -/
def System.createTx (cfg : Config) (s : System) (r : CreateReq) (b : Bytes) (expires : Time) : Except Err Unit :=
  match createShareLink cfg s.world.store.db s.world.store.now r.userId s.world.store.next b.length (format expires) r.budget with
  | .error .quota => .error .quota
  | x => if s.Taken (cfg.sha256 r.token) then .error .internal else x.map fun _ => ()

/-- `POST /share-links`. -/
def System.create (cfg : Config) (s : System) (r : CreateReq) : System × Reply :=
  match r.check s.world.store.clock with
  | .error e => (s, e)
  | .ok (b, expires) =>
    match s.createTx cfg r b expires with
    | .error e => (s, txError e)
    | .ok () =>
      ({ s with
          world := s.world.next cfg (.createShareLink r.userId b.length (format expires) r.budget)
          secrets := s.secrets.insertOrIgnore ⟨s.world.store.next, cfg.sha256 r.token, b, s.world.store.now⟩ },
        .created s.world.store.next r.token (format expires))

/-- `POST /objects/{id}/share-links`. -/
structure ObjectReq where
  userId : UserId
  objectId : ObjectId
  bodyBytes : Nat
  /-- `0`: the current version. -/
  version : Int
  /-- `none`: no time in RFC 3339. -/
  expiresAt : Option Time
  random : TokenBytes
  /-- `checkDatabaseBudget` passes. -/
  budget : Bool

/-- The version that a link is asked for, of a page in a container of the caller. -/
def ObjectReq.selected (r : ObjectReq) (db : DB) : Option ObjectVersion :=
  match db.pages.objects.get r.objectId with
  | none => none
  | some o =>
    if ∃ m ∈ db.keys.memberships, m.containerId = o.containerId ∧ m.userId = r.userId ∧ m.revokedAt = none then
      db.pages.objectVersions.get (o.id, if r.version = 0 then o.currentVersion else r.version.toNat)
    else none

/-- `POST /objects/{id}/share-links`: the expiry has no upper bound. -/
def System.createObject (cfg : Config) (s : System) (r : ObjectReq) : System × Reply :=
  if 4096 < r.bodyBytes then (s, invalidRequest "invalid request")
  else match r.expiresAt.filter fun t => s.world.store.clock < t with
    | none => (s, invalidRequest "invalid request")
    | some expires =>
      if r.version < 0 then (s, invalidRequest "invalid request")
      else match r.selected s.world.store.db with
        | none => (s, .error 404 "not_found" "not found")
        | some v =>
          let hash := cfg.sha256 (tokenText r.random)
          match s.objectLinks.insert ⟨hash, s.nextObjectLink, v.objectId, v.version, format expires, s.world.store.now⟩ with
          | none => (s, txError .internal)
          | some t =>
            if r.budget then
              ({ s with objectLinks := t, nextObjectLink := s.nextObjectLink + 1 },
                .createdObject s.nextObjectLink (tokenText r.random) (format expires) (commitReceipt v))
            else (s, txError .storageFull)

/-! ## Reading a link -/

/-- What `GET /share-links/{token}` serves. -/
inductive Opened
  | sealed (body : Bytes)
  | object (version : ObjectVersion) (body : Bytes) (receipt : Receipt)
  | notFound
deriving DecidableEq

/-- `blobs.Open`: the file of a digest, when it has it. -/
def openBlob (cfg : Config) (files : Files) (d : Digest) : Option Bytes := (files d).filter fun b => cfg.sha256 b = d

/-- The version that a link to a page names, as it is stored. -/
def System.openObject (cfg : Config) (s : System) (l : ObjectLink) : Opened :=
  if s.world.store.clock < parseTime l.expiresAt then
    match s.world.store.db.pages.objectVersions.get (l.objectId, l.objectVersion) with
    | none => .notFound
    | some v =>
      match openBlob cfg s.world.store.files v.blobDigest with
      | none => .notFound
      | some b => if b.length = v.ciphertextBytes then .object v b (commitReceipt v) else .notFound
  else .notFound

/-- `GET /share-links/{token}`. An expired sealed link is not looked for among the links to pages. -/
def System.read (cfg : Config) (s : System) (token : Bytes) : Opened :=
  if token.length ≠ 43 then .notFound
  else match s.sealedRows.find? fun row => row.2.tokenHash = cfg.sha256 token ∧ row.1.revokedAt = none with
    | some row =>
      if s.world.store.clock < parseTime row.1.expiresAt then .sealed row.2.ciphertext else .notFound
    | none =>
      match s.objectLinks.get (cfg.sha256 token) with
      | none => .notFound
      | some l => s.openObject cfg l

structure Summary where
  id : LinkId
  createdAt : Stamp
  expiresAt : Stamp
  bytes : Nat
deriving DecidableEq

/-- `ORDER BY created_at DESC, id`. -/
def Summary.before (a b : Summary) : Bool := b.createdAt < a.createdAt ∨ a.createdAt = b.createdAt ∧ a.id ≤ b.id

/-- `GET /share-links`: the caller's own live links, newest first. -/
def System.list (s : System) (userId : UserId) : List Summary :=
  ((s.sealedRows.filter fun row =>
    row.1.ownerUserId = userId ∧ row.1.revokedAt = none ∧ s.world.store.now < row.1.expiresAt).map fun row =>
      ⟨row.1.id, row.2.createdAt, row.1.expiresAt, row.1.bytes⟩).mergeSort Summary.before

/-! ## Runs -/

/-- The operations of the server that make no sealed link. -/
abbrev ServerOp := { op : KyNotes.Op // op.makesLink = false }

inductive Op
  | server (op : ServerOp)
  | create (r : CreateReq)
  | createObject (r : ObjectReq)

/-- `DELETE /share-links/{id}`. -/
def Op.revoke (userId : UserId) (id : LinkId) : Op := .server ⟨.revokeShareLink userId id, rfl⟩

def System.next (cfg : Config) (s : System) : Op → System
  | .server op => { s with world := s.world.next cfg op.1 }
  | .create r => (s.create cfg r).1
  | .createObject r => (s.createObject cfg r).1

/-- The system that a list of operations makes of a new server. -/
def System.reach (cfg : Config) (ops : List Op) : System := Transition.run (System.next cfg) .init ops

variable {s : System} {ops : List Op}

/-! ## What an operation does to the rows -/

theorem mem_sealedRows {row : SealedShareLink × Secret} :
    row ∈ s.sealedRows ↔ row.1 ∈ s.links ∧ s.secrets.get row.1.id = some row.2 := by
  simp only [System.sealedRows, List.mem_filterMap, Option.map_eq_some_iff]
  constructor
  · rintro ⟨l, hl, x, hx, rfl⟩
    exact ⟨hl, hx⟩
  · rintro ⟨hl, hx⟩
    exact ⟨row.1, hl, row.2, hx, rfl⟩

theorem eq_of_id {a b : SealedShareLink × Secret} (ha : a ∈ s.sealedRows) (hb : b ∈ s.sealedRows) (h : a.1.id = b.1.id) :
    a = b := by
  obtain ⟨hla, hxa⟩ := mem_sealedRows.1 ha
  obtain ⟨hlb, hxb⟩ := mem_sealedRows.1 hb
  rw [h] at hxa
  exact Prod.ext (Table.eq_of_key hla hlb h) (Option.some.inj (hxa.symm.trans hxb))

/-- A link that a request has made. -/
structure Link where
  request : CreateReq
  id : LinkId
  made : Stamp
  expires : Stamp
  body : Bytes

/-- The row of a link. -/
def Link.row (cfg : Config) (l : Link) (revokedAt : Option Stamp) : SealedShareLink × Secret :=
  (⟨l.id, l.request.userId, l.body.length, l.expires, revokedAt⟩, ⟨l.id, cfg.sha256 l.request.token, l.body, l.made⟩)

/-- What the maker is shown of a link. -/
def Link.summary (l : Link) : Summary := ⟨l.id, l.made, l.expires, l.body.length⟩

/-- A request makes a link in a state of the system. -/
structure Makes (cfg : Config) (s : System) (l : Link) : Prop where
  created : (s.create cfg l.request).2 = .created l.id l.request.token l.expires
  made : l.made = s.world.store.now
  sealed : l.request.sealed = some l.body

/-- A request makes one link in a state. -/
theorem Makes.unique {cfg : Config} {s : System} {l l' : Link} (h : Makes cfg s l) (h' : Makes cfg s l')
    (hr : l'.request = l.request) : l' = l := by
  have hcreated := h'.created.symm.trans (hr ▸ h.created)
  have hbody := h'.sealed.symm.trans (hr ▸ h.sealed)
  have hmade := h'.made.trans h.made.symm
  obtain ⟨r, id, made, expires, b⟩ := l
  obtain ⟨r', id', made', expires', b'⟩ := l'
  simp only [Reply.created.injEq, Option.some.injEq] at hcreated hbody hmade hr
  rw [hr, hcreated.1, hcreated.2.2, hbody, hmade]

/-- What `POST /share-links` has done where it made a link. -/
structure Added (cfg : Config) (s s' : System) (l : Link) : Prop where
  id : l.id = s.world.store.next
  free : ¬s.Taken (cfg.sha256 l.request.token)
  links : s.links.insert (l.row cfg none).1 = some s'.links
  secrets : s'.secrets = s.secrets.insertOrIgnore (l.row cfg none).2
  inflight : s'.world.inflight = s.world.inflight
  clock : s'.world.store.clock = s.world.store.clock
  next : s'.world.store.next = s.world.store.next + 1

theorem check_ok {r : CreateReq} {clock : Time} {b : Bytes} {expires : Time} (h : r.check clock = .ok (b, expires)) :
    r.sealed = some b ∧ clock < expires ∧ expires ≤ clock + maxShareLinkLifetime := by
  unfold CreateReq.check at h
  split at h
  · cases h
  · split at h
    · cases h
    · rename_i t ht
      split at h
      · cases h
      · rename_i hb
        cases h
        exact ⟨hb, of_decide_eq_true (Option.filter_eq_some_iff.1 ht).2⟩

theorem check_error {r : CreateReq} {clock : Time} {e : Reply} (h : r.check clock = .error e) :
    ∃ message, e = invalidRequest message := by
  unfold CreateReq.check at h
  split at h
  · exact ⟨_, (Except.error.inj h).symm⟩
  · split at h
    · exact ⟨_, (Except.error.inj h).symm⟩
    · split at h
      · exact ⟨_, (Except.error.inj h).symm⟩
      · cases h

/-- The transaction writes the row of a link under a hash that is free. -/
theorem createTx_ok {r : CreateReq} {b : Bytes} {expires : Time} (h : s.createTx cfg r b expires = .ok ()) :
    ¬s.Taken (cfg.sha256 r.token) ∧ ∃ t, createShareLink cfg s.world.store.db s.world.store.now r.userId s.world.store.next
      b.length (format expires) r.budget = .ok t := by
  unfold System.createTx at h
  split at h
  · cases h
  · split at h
    · cases h
    · rename_i hfree
      cases ht : createShareLink cfg s.world.store.db s.world.store.now r.userId s.world.store.next b.length
          (format expires) r.budget with
      | error e =>
        rw [ht] at h
        cases h
      | ok t => exact ⟨hfree, t, rfl⟩

theorem txError_ne (e : Err) (id : LinkId) (token : Bytes) (expires : Stamp) : txError e ≠ .created id token expires := by
  intro h
  cases e <;> cases h

/-- `POST /share-links` makes a link or leaves the system as it is. -/
theorem create_cases (cfg : Config) (s : System) (r : CreateReq) :
    (s.create cfg r).1 = s ∧ (∀ l : Link, l.request = r → ¬Makes cfg s l) ∨
      ∃ l : Link, l.request = r ∧ Makes cfg s l ∧ Added cfg s (s.create cfg r).1 l := by
  cases hc : r.check s.world.store.clock with
  | error e =>
    have hs : s.create cfg r = (s, e) := by
      simp only [System.create, hc]
    refine .inl ⟨by rw [hs], ?_⟩
    rintro l rfl hl
    have hmade := hl.created
    obtain ⟨message, rfl⟩ := check_error hc
    rw [hs] at hmade
    cases hmade
  | ok x =>
    obtain ⟨b, expires⟩ := x
    cases ht : s.createTx cfg r b expires with
    | error e =>
      have hs : s.create cfg r = (s, txError e) := by
        simp only [System.create, hc, ht]
      refine .inl ⟨by rw [hs], ?_⟩
      rintro l rfl hl
      have hmade := hl.created
      rw [hs] at hmade
      exact txError_ne e _ _ _ hmade
    | ok u =>
      obtain ⟨hfree, t, hlink⟩ := createTx_ok ht
      obtain ⟨x, -, -, hinsert⟩ := createShareLink_ok hlink
      have hs : s.create cfg r =
          ({ s with
              world := s.world.next cfg (.createShareLink r.userId b.length (format expires) r.budget)
              secrets := s.secrets.insertOrIgnore ⟨s.world.store.next, cfg.sha256 r.token, b, s.world.store.now⟩ },
            .created s.world.store.next r.token (format expires)) := by
        simp only [System.create, hc, ht]
      have hstore : (s.world.next cfg (.createShareLink r.userId b.length (format expires) r.budget)).store =
          commitDb s.world.store (.ok { s.world.store.db with sealedShareLinks := t }) := by
        rw [next_tx cfg s.world rfl, hlink]
        rfl
      have hlinks : (s.world.next cfg (.createShareLink r.userId b.length (format expires) r.budget)).store.db.sealedShareLinks = t := by
        rw [hstore]
        rfl
      refine .inr ⟨⟨r, s.world.store.next, s.world.store.now, format expires, b⟩, rfl, ⟨by rw [hs], rfl, (check_ok hc).1⟩, ?_⟩
      rw [hs]
      exact ⟨rfl, hfree, hinsert.trans (congrArg some hlinks.symm), rfl, rfl, by rw [hstore]; rfl, by rw [hstore]; rfl⟩

/-- What `POST /objects/{id}/share-links` leaves as it is. -/
theorem createObject_same (cfg : Config) (s : System) (r : ObjectReq) :
    (s.createObject cfg r).1.world = s.world ∧ (s.createObject cfg r).1.secrets = s.secrets := by
  unfold System.createObject
  split
  · exact ⟨rfl, rfl⟩
  split
  · exact ⟨rfl, rfl⟩
  split
  · exact ⟨rfl, rfl⟩
  split
  · exact ⟨rfl, rfl⟩
  simp only
  split
  · exact ⟨rfl, rfl⟩
  split <;> exact ⟨rfl, rfl⟩

/-! ## The invariant of runs -/

/-- What every run keeps: no pass is from the future, identifiers are used up, and no two rows have one hash. -/
structure Inv (s : System) : Prop where
  begun : ∀ f ∈ s.world.inflight, Begun s.world.store f.job
  used : ∀ x ∈ s.secrets, x.id < s.world.store.next
  unique : ∀ a ∈ s.sealedRows, ∀ b ∈ s.sealedRows, a.2.tokenHash = b.2.tokenHash → a = b

theorem init_inv : Inv .init where
  begun f hf := by cases hf
  used x hx := by cases hx
  unique a ha := by cases ha

/-- The rows after a link was made. -/
theorem Added.rows {s' : System} {l : Link} (hi : Inv s) (h : Added cfg s s' l) {row : SealedShareLink × Secret} :
    row ∈ s'.sealedRows ↔ row ∈ s.sealedRows ∨ row = l.row cfg none := by
  have hfresh : s.links.get l.id = none := Table.insert_fresh h.links
  have hunused : s.secrets.get l.id = none := by
    refine Table.get_eq_none.2 fun x hx hid => ?_
    have hlt := hi.used x hx
    rw [hid, h.id] at hlt
    exact Nat.lt_irrefl _ hlt
  have hget : ∀ id, s'.secrets.get id = if l.id = id then some (l.row cfg none).2 else s.secrets.get id := by
    intro id
    rw [h.secrets, Table.get_insertOrIgnore]
    by_cases hid : l.id = id
    · rw [if_pos hid, ← hid, hunused]
      exact if_pos rfl
    · rw [if_neg hid]
      have hne : (l.row cfg none).2.id ≠ id := hid
      rw [if_neg hne, Option.or_none]
  rw [mem_sealedRows, mem_sealedRows, Table.mem_insert h.links, hget]
  constructor
  · rintro ⟨hl | hl, hx⟩
    · rw [if_neg fun hid => Table.get_eq_none.1 hfresh row.1 hl hid.symm] at hx
      exact .inl ⟨hl, hx⟩
    · have hid : l.id = row.1.id := by rw [hl]; rfl
      rw [if_pos hid] at hx
      exact .inr (Prod.ext hl (Option.some.inj hx).symm)
  · rintro (⟨hl, hx⟩ | rfl)
    · rw [if_neg fun hid => Table.get_eq_none.1 hfresh row.1 hl hid.symm]
      exact ⟨.inl hl, hx⟩
    · exact ⟨.inr rfl, if_pos rfl⟩

/-- A row after an operation of the server is a row as it was, or one that its owner has just revoked. -/
structure Older (row row' : SealedShareLink × Secret) : Prop where
  id : row'.1.id = row.1.id
  owner : row'.1.ownerUserId = row.1.ownerUserId
  bytes : row'.1.bytes = row.1.bytes
  expires : row'.1.expiresAt = row.1.expiresAt
  live : row'.1.revokedAt = none → row.1.revokedAt = none
  secret : row'.2 = row.2

theorem Older.refl (row : SealedShareLink × Secret) : Older row row := ⟨rfl, rfl, rfl, rfl, fun h => h, rfl⟩

theorem Older.row_eq {l : Link} {revokedAt : Option Stamp} {row : SealedShareLink × Secret}
    (h : Older (l.row cfg revokedAt) row) : row = l.row cfg row.1.revokedAt := by
  obtain ⟨⟨id, owner, bytes, expires, revoked⟩, x⟩ := row
  obtain ⟨rfl, rfl, rfl, rfl, -, rfl⟩ := h
  rfl

/-- What an operation of the server does to the rows. -/
theorem server_rows (cfg : Config) (hi : Inv s) (op : ServerOp) :
    (∀ row' ∈ (s.next cfg (.server op)).sealedRows, ∃ row ∈ s.sealedRows, Older row row') ∧
      ∀ row ∈ s.sealedRows, row.1.revokedAt = none → s.world.store.now < row.1.expiresAt →
        row ∈ (s.next cfg (.server op)).sealedRows ∨ .server op = Op.revoke row.1.ownerUserId row.1.id := by
  obtain ⟨op, hop⟩ := op
  obtain h | ⟨t, ht, h⟩ | ⟨u, id, rfl, ⟨l, hl, hid, howner, hlive⟩, h⟩ := links_next cfg hi.begun hop
  · have hrows : (s.next cfg (.server ⟨op, hop⟩)).sealedRows = s.sealedRows := by
      simp only [System.sealedRows, System.next, System.links, h]
    rw [hrows]
    exact ⟨fun row hrow => ⟨row, hrow, .refl row⟩, fun row hrow _ _ => .inl hrow⟩
  · have hrows : ∀ row, row ∈ (s.next cfg (.server ⟨op, hop⟩)).sealedRows ↔
        row ∈ s.sealedRows ∧ ¬(row.1.expiresAt ≤ t ∨ row.1.revokedAt ≠ none) := by
      intro row
      rw [mem_sealedRows, mem_sealedRows]
      simp only [System.next, System.links, h, Table.mem_delete]
      tauto
    refine ⟨fun row hrow => ⟨row, ((hrows row).1 hrow).1, .refl row⟩, fun row hrow hnone hexp => .inl ((hrows row).2 ⟨hrow, ?_⟩)⟩
    rintro (hpast | hrevoked)
    · exact absurd (Nat.le_trans hpast ht) (Nat.not_le.2 hexp)
    · exact hrevoked hnone
  · have hmem : ∀ row, row ∈ (s.next cfg (Op.revoke u id)).sealedRows ↔
        row.1 ∈ s.links.update (fun l => l.id = id) (fun l => { l with revokedAt := some s.world.store.now }) ∧
          s.secrets.get row.1.id = some row.2 := by
      intro row
      rw [mem_sealedRows]
      simp only [System.next, System.links, Op.revoke, h]
    constructor
    · intro row' hrow'
      obtain ⟨hl', hx'⟩ := (hmem row').1 hrow'
      obtain ⟨hl', -⟩ | ⟨l', hl', -, heq⟩ := Table.mem_update_cases hl'
      · exact ⟨row', mem_sealedRows.2 ⟨hl', hx'⟩, .refl row'⟩
      · refine ⟨(l', row'.2), mem_sealedRows.2 ⟨hl', by rw [heq] at hx'; exact hx'⟩, ?_⟩
        exact ⟨by rw [heq], by rw [heq], by rw [heq], by rw [heq], fun h => (by rw [heq] at h; cases h), rfl⟩
    · intro row hrow hnone hexp
      obtain ⟨hl', hx'⟩ := mem_sealedRows.1 hrow
      by_cases hrid : row.1.id = id
      · obtain rfl : row.1 = l := Table.eq_of_key hl' hl (hrid.trans hid.symm)
        right
        rw [howner, hid]
        rfl
      · exact .inl ((hmem row).2 ⟨Table.mem_update_of_not hl' hrid, hx'⟩)

/-- No live row of its owner is left by a revocation. -/
theorem revoked_rows {u : UserId} {id : LinkId} {row : SealedShareLink × Secret}
    (h : row ∈ (s.next cfg (Op.revoke u id)).sealedRows) (hid : row.1.id = id) (howner : row.1.ownerUserId = u) :
    row.1.revokedAt ≠ none := by
  have hl := (mem_sealedRows.1 h).1
  have hstore : (s.next cfg (Op.revoke u id)).world.store = commitDb s.world.store
      ((revokeShareLink s.world.store.db u id s.world.store.now).map fun t => { s.world.store.db with sealedShareLinks := t }) :=
    next_tx cfg s.world rfl
  rw [System.links, hstore] at hl
  cases hx : revokeShareLink s.world.store.db u id s.world.store.now with
  | error e =>
    rw [hx] at hl
    simp only [revokeShareLink, bind_error, require_error, pure_error, and_false, exists_false, or_false] at hx
    exact fun hnone => hx.1 ⟨row.1, hl, hid, howner, hnone⟩
  | ok t =>
    rw [hx, revokeShareLink_ok hx] at hl
    obtain ⟨-, hne⟩ | ⟨l, -, -, heq⟩ := Table.mem_update_cases hl
    · exact absurd hid hne
    · rw [heq]
      exact Option.some_ne_none _

theorem step_inv (cfg : Config) (s : System) (op : Op) (hi : Inv s) : Inv (s.next cfg op) := by
  cases op with
  | server op =>
    obtain ⟨hold, -⟩ := server_rows cfg hi op
    refine ⟨step_begun cfg op.1 hi.begun, fun x hx => ?_, fun a' ha' b' hb' hab => ?_⟩
    · exact Nat.lt_of_lt_of_le (hi.used x hx) (Cleanup.change_next_le (step_change cfg s.world op.1))
    · obtain ⟨a, ha, hao⟩ := hold a' ha'
      obtain ⟨b, hb, hbo⟩ := hold b' hb'
      have hsame : a = b := hi.unique a ha b hb (by rw [← hao.secret, ← hbo.secret, hab])
      exact eq_of_id ha' hb' (by rw [hao.id, hbo.id, hsame])
  | create r =>
    obtain ⟨hsame, -⟩ | ⟨l, rfl, -, hadded⟩ := create_cases cfg s r
    · simp only [System.next, hsame]
      exact hi
    · refine ⟨?_, fun x hx => ?_, fun a ha b hb hab => ?_⟩
      · intro f hf b now st hgc
        simp only [System.next, hadded.inflight] at hf
        simp only [System.next, hadded.clock]
        exact hi.begun f hf b now st hgc
      · simp only [System.next, hadded.secrets, hadded.next] at hx ⊢
        obtain hx | ⟨rfl, -⟩ := Table.mem_insertOrIgnore.1 hx
        · exact Nat.lt_succ_of_lt (hi.used x hx)
        · rw [show (l.row cfg none).2.id = l.id from rfl, hadded.id]
          exact Nat.lt_succ_self _
      · obtain ha | rfl := (hadded.rows hi).1 ha
        · obtain hb | rfl := (hadded.rows hi).1 hb
          · exact hi.unique a ha b hb hab
          · exact absurd ⟨a, ha, hab⟩ hadded.free
        · obtain hb | rfl := (hadded.rows hi).1 hb
          · exact absurd ⟨b, hb, hab.symm⟩ hadded.free
          · rfl
  | createObject r =>
    obtain ⟨hw, hs⟩ := createObject_same cfg s r
    have hrows : (s.next cfg (.createObject r)).sealedRows = s.sealedRows := by
      simp only [System.sealedRows, System.next, System.links, hw, hs]
    refine ⟨?_, ?_, ?_⟩
    · simp only [System.next, hw]
      exact hi.begun
    · simp only [System.next, hw, hs]
      exact hi.used
    · rw [hrows]
      exact hi.unique

theorem reach_inv (cfg : Config) (ops : List Op) : Inv (System.reach cfg ops) := run_inv (step_inv cfg) ops init_inv

/-! ## Rows and links -/

/-- The run has made a link, and this is what came after. -/
def Made (cfg : Config) (ops : List Op) (l : Link) (after : List Op) : Prop :=
  ∃ before, ops = before ++ .create l.request :: after ∧ Makes cfg (System.reach cfg before) l

theorem made_concat {l : Link} {after : List Op} {op : Op} : Made cfg (ops ++ [op]) l after ↔
    (∃ after', after = after' ++ [op] ∧ Made cfg ops l after') ∨
      after = [] ∧ op = .create l.request ∧ Makes cfg (System.reach cfg ops) l := by
  constructor
  · rintro ⟨before, hops, hmakes⟩
    obtain rfl | ⟨after', x, rfl⟩ := List.eq_nil_or_concat after
    · obtain ⟨rfl, hop⟩ := List.append_inj' hops rfl
      exact .inr ⟨rfl, List.singleton_injective hop, hmakes⟩
    · rw [List.concat_eq_append, ← List.cons_append, ← List.append_assoc] at hops
      obtain ⟨hops, hop⟩ := List.append_inj' hops rfl
      refine .inl ⟨after', ?_, before, hops, hmakes⟩
      rw [List.concat_eq_append, hop]
  · rintro (⟨after', rfl, before, rfl, hmakes⟩ | ⟨rfl, rfl, hmakes⟩)
    · exact ⟨before, by simp, hmakes⟩
    · exact ⟨ops, rfl, hmakes⟩

/-- A link lives after a run that has made it: it has not expired, and its maker has not revoked it. -/
def Lives (cfg : Config) (ops : List Op) (l : Link) : Prop :=
  ∃ after, Made cfg ops l after ∧ (System.reach cfg ops).world.store.clock < parseTime l.expires ∧
    Op.revoke l.request.userId l.id ∉ after

/-- Every row is the row of a link that was made, and a row that is not revoked is of one that nobody has revoked. -/
def Filed (cfg : Config) (ops : List Op) : Prop := ∀ row ∈ (System.reach cfg ops).sealedRows, ∃ l after revokedAt,
  row = l.row cfg revokedAt ∧ Made cfg ops l after ∧ (revokedAt = none → Op.revoke l.request.userId l.id ∉ after)

theorem reach_concat (cfg : Config) (ops : List Op) (op : Op) :
    System.reach cfg (ops ++ [op]) = (System.reach cfg ops).next cfg op := run_concat _ _ _ _

theorem createObject_rows (cfg : Config) (s : System) (r : ObjectReq) :
    (s.next cfg (.createObject r)).sealedRows = s.sealedRows := by
  obtain ⟨hw, hs⟩ := createObject_same cfg s r
  simp only [System.sealedRows, System.next, System.links, hw, hs]

theorem reach_filed (cfg : Config) (ops : List Op) : Filed cfg ops := by
  induction ops using List.reverseRecOn with
  | nil => exact fun row hrow => by cases hrow
  | append_singleton ops op ih =>
    intro row hrow
    have hi := reach_inv cfg ops
    rw [reach_concat] at hrow
    have hlater : ∀ {l : Link} {after : List Op} {op : Op}, Made cfg ops l after → Made cfg (ops ++ [op]) l (after ++ [op]) :=
      fun h => made_concat.2 (.inl ⟨_, rfl, h⟩)
    have hnot : ∀ {l : Link} {after : List Op} {op : Op}, Op.revoke l.request.userId l.id ∉ after →
        op ≠ Op.revoke l.request.userId l.id → Op.revoke l.request.userId l.id ∉ after ++ [op] := by
      intro l after op h hop hmem
      obtain hmem | hmem := List.mem_append.1 hmem
      · exact h hmem
      · exact hop (List.mem_singleton.1 hmem).symm
    cases op with
    | server op =>
      obtain ⟨old, hold, ho⟩ := (server_rows cfg hi op).1 row hrow
      obtain ⟨l, after, revokedAt, rfl, hmade, hquiet⟩ := ih old hold
      refine ⟨l, _, row.1.revokedAt, ?_, hlater hmade, fun hnone => hnot (hquiet (ho.live hnone)) fun hop => ?_⟩
      · exact ho.row_eq
      · rw [hop] at hrow
        exact revoked_rows hrow ho.id ho.owner hnone
    | create r =>
      obtain ⟨hsame, -⟩ | ⟨l, rfl, hmakes, hadded⟩ := create_cases cfg (System.reach cfg ops) r
      · rw [System.next, hsame] at hrow
        obtain ⟨l, after, revokedAt, rfl, hmade, hquiet⟩ := ih row hrow
        exact ⟨l, _, revokedAt, rfl, hlater hmade, fun hnone => hnot (hquiet hnone) fun h => by cases h⟩
      · obtain hrow | rfl := (hadded.rows hi).1 hrow
        · obtain ⟨l', after, revokedAt, rfl, hmade, hquiet⟩ := ih row hrow
          exact ⟨l', _, revokedAt, rfl, hlater hmade, fun hnone => hnot (hquiet hnone) fun h => by cases h⟩
        · exact ⟨l, [], none, rfl, made_concat.2 (.inr ⟨rfl, rfl, hmakes⟩), fun _ => List.not_mem_nil⟩
    | createObject r =>
      rw [createObject_rows] at hrow
      obtain ⟨l, after, revokedAt, rfl, hmade, hquiet⟩ := ih row hrow
      exact ⟨l, _, revokedAt, rfl, hlater hmade, fun hnone => hnot (hquiet hnone) fun h => by cases h⟩

/-- A time before a stored one is stored before it. -/
theorem format_lt {t : Time} {e : Stamp} : t < parseTime e ↔ format t < e :=
  (Nat.div_lt_iff_lt_mul (by decide)).symm

theorem next_clock (cfg : Config) (s : System) (op : Op) : s.world.store.clock ≤ (s.next cfg op).world.store.clock := by
  cases op with
  | server op => exact step_clock cfg s.world op.1
  | create r =>
    obtain ⟨hsame, -⟩ | ⟨l, rfl, -, hadded⟩ := create_cases cfg s r
    · rw [System.next, hsame]
    · exact Nat.le_of_eq hadded.clock.symm
  | createObject r => rw [System.next, (createObject_same cfg s r).1]

theorem reach_kept (cfg : Config) (ops : List Op) {l : Link} (h : Lives cfg ops l) :
    l.row cfg none ∈ (System.reach cfg ops).sealedRows := by
  induction ops using List.reverseRecOn with
  | nil =>
    obtain ⟨after, ⟨before, hops, -⟩, -⟩ := h
    cases before <;> cases hops
  | append_singleton ops op ih =>
    obtain ⟨after, hmade, hlive, hquiet⟩ := h
    have hi := reach_inv cfg ops
    rw [reach_concat] at hlive ⊢
    obtain ⟨after', rfl, hmade'⟩ | ⟨rfl, rfl, hmakes⟩ := made_concat.1 hmade
    · have hbefore : (System.reach cfg ops).world.store.clock < parseTime l.expires :=
        Nat.lt_of_le_of_lt (next_clock cfg _ op) hlive
      have hrow := ih ⟨after', hmade', hbefore, fun hmem => hquiet (List.mem_append_left _ hmem)⟩
      cases op with
      | server op =>
        obtain hrow | hop := (server_rows cfg hi op).2 _ hrow rfl (format_lt.1 hbefore)
        · exact hrow
        · exact absurd (List.mem_append_right _ (List.mem_singleton.2 hop.symm)) hquiet
      | create r =>
        obtain ⟨hsame, -⟩ | ⟨l', rfl, -, hadded⟩ := create_cases cfg (System.reach cfg ops) r
        · rwa [System.next, hsame]
        · exact (hadded.rows hi).2 (.inl hrow)
      | createObject r => rwa [createObject_rows]
    · obtain ⟨-, hnot⟩ | ⟨l', hr, hmakes', hadded⟩ := create_cases cfg (System.reach cfg ops) l.request
      · exact absurd hmakes (hnot l rfl)
      · obtain rfl := hmakes.unique hmakes' hr
        exact (hadded.rows hi).2 (.inr rfl)

/-- The live rows are the rows of the links that live. -/
theorem live_rows (cfg : Config) (ops : List Op) {row : SealedShareLink × Secret} :
    (row ∈ (System.reach cfg ops).sealedRows ∧ row.1.revokedAt = none ∧
      (System.reach cfg ops).world.store.clock < parseTime row.1.expiresAt) ↔ ∃ l, Lives cfg ops l ∧ row = l.row cfg none := by
  constructor
  · rintro ⟨hrow, hnone, hlive⟩
    obtain ⟨l, after, revokedAt, rfl, hmade, hquiet⟩ := reach_filed cfg ops row hrow
    obtain rfl : revokedAt = none := hnone
    exact ⟨l, ⟨after, hmade, hlive, hquiet rfl⟩, rfl⟩
  · rintro ⟨l, hl, rfl⟩
    exact ⟨reach_kept cfg ops hl, rfl, hl.choose_spec.2.1⟩

/-- A user is shown the live rows of the user's own. -/
theorem mem_list {u : UserId} {x : Summary} : x ∈ s.list u ↔ ∃ row ∈ s.sealedRows,
    row.1.ownerUserId = u ∧ row.1.revokedAt = none ∧ s.world.store.clock < parseTime row.1.expiresAt ∧
      x = ⟨row.1.id, row.2.createdAt, row.1.expiresAt, row.1.bytes⟩ := by
  simp only [System.list, List.mem_mergeSort, List.mem_map, List.mem_filter, format_lt]
  constructor
  · rintro ⟨row, ⟨hrow, hp⟩, rfl⟩
    obtain ⟨hu, hnone, hlive⟩ := of_decide_eq_true hp
    exact ⟨row, hrow, hu, hnone, hlive, rfl⟩
  · rintro ⟨row, hrow, hu, hnone, hlive, rfl⟩
    exact ⟨row, ⟨hrow, decide_eq_true ⟨hu, hnone, hlive⟩⟩, rfl⟩

theorem list_sorted (s : System) (u : UserId) : (s.list u).Pairwise fun a b => a.before b = true := by
  refine List.pairwise_mergeSort ?_ ?_ _
  · intro a b c hab hbc
    simp only [Summary.before, decide_eq_true_eq, Stamp, LinkId] at hab hbc ⊢
    omega
  · intro a b
    simp only [Summary.before, Bool.or_eq_true, decide_eq_true_eq, Stamp, LinkId]
    omega

theorem openObject_ne (cfg : Config) (s : System) (l : ObjectLink) (body : Bytes) : s.openObject cfg l ≠ .sealed body := by
  unfold System.openObject
  intro h
  split at h
  · split at h
    · cases h
    · split at h
      · cases h
      · split at h <;> cases h
  · cases h

/-- A token opens what is sealed under its hash, in a row that is live. -/
theorem read_sealed (cfg : Config) (hi : Inv s) {token body : Bytes} : s.read cfg token = .sealed body ↔
    token.length = 43 ∧ ∃ row ∈ s.sealedRows, row.2.tokenHash = cfg.sha256 token ∧ row.1.revokedAt = none ∧
      s.world.store.clock < parseTime row.1.expiresAt ∧ row.2.ciphertext = body := by
  unfold System.read
  by_cases hlen : token.length = 43
  · rw [if_neg (not_not.2 hlen)]
    cases hf : s.sealedRows.find? fun row => row.2.tokenHash = cfg.sha256 token ∧ row.1.revokedAt = none with
    | none =>
      have hnone := List.find?_eq_none.1 hf
      simp only [hlen, true_and]
      constructor
      · intro h
        split at h
        · cases h
        · exact absurd h (openObject_ne cfg s _ body)
      · rintro ⟨row, hrow, hhash, hlive, -⟩
        exact absurd (decide_eq_true ⟨hhash, hlive⟩) (hnone row hrow)
    | some row =>
      have hrow := List.mem_of_find?_eq_some hf
      have hp := List.find?_some hf
      rw [decide_eq_true_eq] at hp
      simp only [hlen, true_and]
      constructor
      · intro h
        split at h
        · rename_i hlive
          exact ⟨row, hrow, hp.1, hp.2, hlive, Opened.sealed.inj h⟩
        · cases h
      · rintro ⟨row', hrow', hhash, -, hlive, rfl⟩
        obtain rfl := hi.unique row' hrow' row hrow (hhash.trans hp.1.symm)
        rw [if_pos hlive]
  · rw [if_pos hlen]
    exact ⟨fun h => (by cases h), fun h => absurd h.1 hlen⟩

/-- **Sealed links.** A token opens a ciphertext exactly when it has the hash of the token of a link to it that lives, and
a user is shown exactly the links that the user has made and that live, the newest first. -/
theorem sealed_links_open (cfg : Config) (ops : List Op) :
    (∀ token body, (System.reach cfg ops).read cfg token = .sealed body ↔
      token.length = 43 ∧ ∃ l, Lives cfg ops l ∧ cfg.sha256 l.request.token = cfg.sha256 token ∧ l.body = body) ∧
    ∀ u, (∀ x, x ∈ (System.reach cfg ops).list u ↔ ∃ l, Lives cfg ops l ∧ l.request.userId = u ∧ l.summary = x) ∧
      ((System.reach cfg ops).list u).Pairwise fun a b => a.before b = true := by
  refine ⟨fun token body => ?_, fun u => ⟨fun x => ?_, list_sorted _ u⟩⟩
  · rw [read_sealed cfg (reach_inv cfg ops)]
    refine and_congr_right fun _ => ?_
    constructor
    · rintro ⟨row, hrow, hhash, hnone, hlive, rfl⟩
      obtain ⟨l, hl, rfl⟩ := (live_rows cfg ops).1 ⟨hrow, hnone, hlive⟩
      exact ⟨l, hl, hhash, rfl⟩
    · rintro ⟨l, hl, hhash, rfl⟩
      obtain ⟨hrow, hnone, hlive⟩ := (live_rows cfg ops).2 ⟨l, hl, rfl⟩
      exact ⟨_, hrow, hhash, hnone, hlive, rfl⟩
  · rw [mem_list]
    constructor
    · rintro ⟨row, hrow, rfl, hnone, hlive, rfl⟩
      obtain ⟨l, hl, rfl⟩ := (live_rows cfg ops).1 ⟨hrow, hnone, hlive⟩
      exact ⟨l, hl, rfl, rfl⟩
    · rintro ⟨l, hl, rfl, rfl⟩
      obtain ⟨hrow, hnone, hlive⟩ := (live_rows cfg ops).2 ⟨l, hl, rfl⟩
      exact ⟨_, hrow, rfl, hnone, hlive, rfl⟩

end Shares

end KyNotes
