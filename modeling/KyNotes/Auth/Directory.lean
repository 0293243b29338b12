import KyNotes.Auth.Sessions

/-!
# Accounts (`httpapi/sso_directory.go`, `httpapi/admin_routes.go`)

* `insertUser`, `updateUser`: the statements on `users` with the unique columns of the table and its triggers.
* `directoryRequest` with `syncSingleUser` and `revokeForRoleChange`: a signed delivery of the directory.
* `patchUser`, `grantAdmin`: an administrator's edit of an account, and the grant of apply-setup.
-/

namespace KyNotes.Auth

open Relational Check

/-! ## Statements on accounts -/

/-- The directory has disabled the identity. -/
def directoryDenies (db : Db) (issuer subject : String) : Prop :=
  ∃ d ∈ db.directory, d.issuer = issuer ∧ d.subject = subject ∧ d.active = false

instance (db : Db) (issuer subject : String) : Decidable (directoryDenies db issuer subject) :=
  inferInstanceAs (Decidable (∃ d ∈ db.directory, _))

/-- The unique columns of `users` and the triggers `users_directory_insert`, `users_directory_update`,
`users_admin_role_insert` and `users_admin_role_update`, for a row as it is written. -/
def userAllowed (db : Db) (u : User) : Prop :=
  (∀ x ∈ db.users, x.id ≠ u.id → x.username ≠ u.username) ∧
  (u.ssoSubject ≠ "" → ∀ x ∈ db.users, x.id ≠ u.id → ¬(x.ssoIssuer = u.ssoIssuer ∧ x.ssoSubject = u.ssoSubject)) ∧
  ¬(u.status = .active ∧ directoryDenies db u.ssoIssuer u.ssoSubject) ∧
  (u.role = .admin → u.accountKind = .admin)

instance (db : Db) (u : User) : Decidable (userAllowed db u) := inferInstanceAs (Decidable (_ ∧ _ ∧ _ ∧ _))

/-- `INSERT INTO users`. -/
def insertUser (db : Db) (u : User) : Except Err Db := do
  require (userAllowed db u) .constraint
  let t ← fetch (db.users.insert u) .constraint
  pure { db with users := t }

/-- `UPDATE users SET role, status, ... WHERE id=?`: no row, no error. -/
def updateUser (db : Db) (id : UserId) (f : User → User) : Except Err Db :=
  match db.users.get id with
  | none => .ok db
  | some u => do
    require (userAllowed db (f u)) .constraint
    pure { db with users := db.users.update (fun x => x.id = id) f }

/-! ## The directory -/

/-- The SCIM resource of a delivery. `version` is the `n` of a `meta.version` that is written `W/"n"`; `adminRole` is
`sso.HasAdminRole` of its roles. -/
structure DirectoryUser where
  schemas : List String
  adminRole : Bool
  id : String
  externalId : String
  userName : String
  active : Option Bool
  version : Option Nat
deriving DecidableEq

/-- `directoryIdentifier`. -/
def directoryIdentifier (cfg : Config) (s : String) : Bool :=
  s ≠ "" ∧ s.utf8ByteSize ≤ 256 ∧ cfg.printable s = true

/-- `directoryUser.revision`: the revision and the `active` flag of a well-formed resource. -/
def DirectoryUser.check (cfg : Config) (u : DirectoryUser) (kind : String) : Option (Nat × Bool) :=
  match u.version, u.active with
  | some n, some active =>
    if 0 < n ∧ n < 2 ^ 63 ∧ directoryIdentifier cfg u.id = true ∧ u.externalId = u.id ∧
        (u.userName ≠ "" → directoryIdentifier cfg u.userName = true) ∧ ¬(active = true ∧ u.userName = "") ∧
        u.schemas = ["urn:ietf:params:scim:schemas:core:2.0:User"] ∧
        (kind = "user.created" ∨ kind = "user.updated" ∨ (kind = "user.deleted" ∧ active = false)) then
      some (n, active)
    else none
  | _, _ => none

/-- `localRole`. -/
def DirectoryUser.localRole (u : DirectoryUser) : UserRole :=
  if u.active = some true ∧ u.adminRole = true then .admin else .user

/-- A delivery whose signature has been verified: `syncauth.Event`, the body and the resource that it unmarshals to. -/
structure Delivery where
  eventId : String
  kind : String
  at' : Time
  body : Bytes
  resource : DirectoryUser
deriving DecidableEq

/-- `syncauth.DefaultWindow`. -/
def defaultWindow : Time := 300 * second

/-- The digest of a delivery: `sha256(type + "\n" + body)`. -/
def Delivery.digest (cfg : Config) (e : Delivery) : Digest := cfg.sha256 (e.kind.toUTF8.data.toList ++ 10 :: e.body)

/-- What the directory account of a new user carries besides the resource. -/
structure Fresh where
  id : UserId
  authSecretHash : String
  loginSalt : String
deriving DecidableEq

/-- `revokeForRoleChange`: promotion and demotion both require fresh sessions, pairings and login proofs. -/
def revokeForRoleChange (db : Db) (issuer subject : String) (userId : UserId) (now : Time) : Db :=
  endCredentials { db with
    cutoffs := db.cutoffs.upsert ⟨issuer, subject, format now⟩ fun c =>
      { c with revokedBefore := max c.revokedBefore (format now) } } userId now

/-- The account of the identity, or else the one of the user name. -/
def findAccount (cfg : Config) (db : Db) (issuer : String) (u : DirectoryUser) : Option User :=
  match db.users.rows.find? fun x => x.ssoSubject = u.id ∧ x.ssoIssuer = issuer with
  | some x => some x
  | none => if u.userName = "" then none else db.users.rows.find? fun x => x.username = cfg.toLower u.userName

/-- An administrator of the account's own standing is left beside it. -/
def otherAdmin (db : Db) (id : UserId) : Prop :=
  ∃ x ∈ db.users, x.id ≠ id ∧ x.status = .active ∧ x.role = .admin

instance (db : Db) (id : UserId) : Decidable (otherAdmin db id) := inferInstanceAs (Decidable (∃ x ∈ db.users, _))

/-- The role that `syncSingleUser` stores for an account that exists: an everyday account never takes the grant, and the
last active administrator keeps it. -/
def storedRole (db : Db) (x : User) (u : DirectoryUser) (active : Bool) : UserRole :=
  let role := if u.localRole = .admin ∧ x.accountKind ≠ .admin then .user else u.localRole
  if x.role = .admin ∧ role ≠ .admin ∧ x.status = .active ∧ active = true ∧ ¬otherAdmin db x.id then .admin else role

/-- `syncSingleUser`. -/
def syncSingleUser (cfg : Config) (db : Db) (issuer : String) (u : DirectoryUser) (active : Bool) (new : Fresh)
    (now : Time) : Except Err Db :=
  match findAccount cfg db issuer u with
  | none =>
    if active = false then .ok db
    else
      insertUser db
        { id := new.id, username := if u.userName = "" then u.id else cfg.toLower u.userName,
          authSecretHash := new.authSecretHash, loginSalt := new.loginSalt, loginIterations := 600000,
          recoveryHash := "", role := u.localRole,
          accountKind := (match u.localRole with | .admin => .admin | .user => .user), status := .active,
          quotaBytes := 0, ssoSubject := u.id, ssoIssuer := issuer, passwordAdminKnown := false }
  | some x => do
    require (x.ssoSubject = "" ∨ (x.ssoSubject = u.id ∧ x.ssoIssuer = issuer)) .subjectConflict
    require (¬(x.ssoSubject = "" ∧ x.accountKind = .admin)) .subjectConflict
    let db₁ := if x.accountKind = .admin ∧ u.localRole ≠ x.role then revokeForRoleChange db issuer u.id x.id now else db
    updateUser db₁ x.id fun y =>
      { y with
        username := if u.userName = "" then x.username else cfg.toLower u.userName, role := storedRole db x u active
        status := if active then .active else .disabled, ssoSubject := u.id, ssoIssuer := issuer }

/-- An inactive delivery ends the live sessions and the device credentials of the account of the identity. -/
def endIdentity (db : Db) (issuer subject : String) (now : Time) : Db :=
  let his : UserId → Prop := fun id => ∃ u ∈ db.users, u.id = id ∧ u.ssoIssuer = issuer ∧ u.ssoSubject = subject
  revokeDevices (revokeSessions db (fun r => r.revokedAt = none ∧ his r.userId) now)
    (fun d => d.platform ≠ identityPlatform ∧ d.revokedAt = none ∧ his d.userId) now

/-- The state row of an applied delivery. -/
def Delivery.state (cfg : Config) (e : Delivery) (issuer : String) (revision : Nat) (active : Bool) (now : Time) :
    DirectoryState :=
  { issuer := issuer, subject := e.resource.id, revision := revision, digest := e.digest cfg, active := active,
    eventId := e.eventId, revokedBefore := if active then 0 else format now }

/-- The write of a delivery with a new revision: the state row, the account and its credentials. -/
def applyDelivery (cfg : Config) (db : Db) (e : Delivery) (issuer : String) (revision : Nat) (active : Bool)
    (new : Fresh) (now : Time) : Except Err Db := do
  let row := e.state cfg issuer revision active now
  let db := { db with
    directory := db.directory.upsert row fun d =>
      { d with
        revision := row.revision, digest := row.digest, active := row.active, eventId := row.eventId
        revokedBefore := max d.revokedBefore row.revokedBefore } }
  let db ← syncSingleUser cfg db issuer e.resource active new now
  pure (if active then db else endIdentity db issuer e.resource.id now)

/-- The answer to a delivery that was not refused. -/
inductive Applied | applied | alreadyApplied
deriving DecidableEq, Repr

/-- `directoryRequest`, with the settings that were loaded when the request arrived. -/
def directoryRequest (cfg : Config) (db : Db) (settings : Settings) (e : Delivery) (new : Fresh) (now : Time) :
    Except Err (Db × Applied) := do
  let (revision, active) ← fetch (e.resource.check cfg e.kind) .invalidRequest
  require (settings.ssoIssuerUrl ≠ "" ∧ directoryIdentifier cfg e.eventId = true) .invalidRequest
  require (db.settings.ssoHmacSecret = settings.ssoHmacSecret ∧ db.settings.ssoIssuerUrl = settings.ssoIssuerUrl)
    .configurationChanged
  let issuer := settings.ssoIssuerUrl
  let prior := db.directory.get (issuer, e.resource.id)
  let priorRevision := (prior.map DirectoryState.revision).getD 0
  require (¬(revision < priorRevision ∨
    (revision = priorRevision ∧ prior.map DirectoryState.digest ≠ some (e.digest cfg)))) .versionConflict
  let kept := db.syncEvents.delete fun s => s.expiresAt < format now
  require (∀ s ∈ kept, s.eventId = e.eventId → s.issuer = issuer ∧ s.digest = e.digest cfg) .eventConflict
  let db := { db with
    syncEvents := kept.insertOrIgnore ⟨e.eventId, format (e.at' + defaultWindow), issuer, e.digest cfg⟩ }
  if priorRevision < revision then do
    let db ← applyDelivery cfg db e issuer revision active new now
    pure (db, .applied)
  else pure (db, .alreadyApplied)

/-! ## Administrators -/

/-- `grantAdmin` of apply-setup, for an account that is bound to the subject. -/
def grantAdmin (db : Db) (userId : UserId) (issuer subject : String) (now : Time) : Except Err Db := do
  let u ← fetch (db.users.get userId) .noRows
  require (u.accountKind = .admin) .constraint
  let db := revokeForRoleChange db issuer subject userId now
  pure { db with users := db.users.update (fun x => x.id = userId) fun x => { x with role := .admin } }

/-- `PATCH /admin/users/{id}`. The kind of an account never changes, so it is read where it is written. -/
def patchUser (db : Db) (s : Session) (id : UserId) (role : UserRole) (status : Status) (quotaBytes : Nat) (now : Time) :
    Except Err Db := do
  let u ← fetch (db.users.get id) .notFound
  require (¬(role = .admin ∧ u.accountKind ≠ .admin)) .accountKindMismatch
  require (¬(id = s.userId ∧ (role ≠ .admin ∨ status ≠ .active))) .invalidRequest
  let caller ← (sessionRole db s).mapError fun _ => .actorRevoked
  require (caller = .admin) .actorRevoked
  let db ← updateUser db id fun u => { u with role := role, status := status, quotaBytes := quotaBytes }
  pure (if status = .disabled then endCredentials db id now else db)

end KyNotes.Auth
