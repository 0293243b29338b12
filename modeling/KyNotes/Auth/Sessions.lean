import KyNotes.Auth.Schema

/-!
# Sessions (`auth/session.go`, `auth/middleware.go`, `auth/sso_session.go`, `auth/sso_logout.go`)

* What a request carries (`Session`) and what its transaction checks again: `liveSessionTx`, `recheckSessionTx`,
  `recheckUserStepUpTx`, `recheckUserActionTx`, `sessionRole`.
* How a session begins: `mintPasswordSession`, `mintSSOSession` with `checkSSOIdentityTx`.
* How it ends: `revokeSession`, `logoutAll`, `applySSOLogout`, `collectSessions`, `saveSettings`.

`now` is the clock that the transaction reads once it holds the writer lock; a request may have read its session
earlier, so it carries any `Session` and the transaction decides.
-/

namespace KyNotes.Auth

open Relational Check

/-- `auth.Session`: what the middleware read. `stepUpRaw` and `passwordHash` are what the request was authorized
against. -/
structure Session where
  id : SessionId
  userId : UserId
  ssoIssuer : String
  ssoClientId : String
  ssoSubject : String
  createdAt : Time
  stepUpRaw : Option Stamp
  passwordHash : String
  accountKind : AccountKind
  passwordChangeRequired : Bool
deriving DecidableEq

/-! ## Checks inside a transaction -/

/-- `liveSessionTx`: the step-up and the password verifier of a live session. -/
def liveSessionTx (db : Db) (s : Session) (now : Time) : Except Err (Option Stamp × String) := do
  let r ← fetch (db.sessions.get s.id) .sessionInvalid
  let u ← fetch (db.users.get r.userId) .sessionInvalid
  require (r.userId = s.userId ∧ r.revokedAt = none ∧ u.status = .active) .sessionInvalid
  require (now ≤ parseTime r.expiresAt ∧ now ≤ parseTime r.hardExpiresAt) .sessionInvalid
  pure (r.stepupAt, u.authSecretHash)

/-- `RecheckSessionTx`. -/
def recheckSessionTx (db : Db) (s : Session) (now : Time) : Except Err String :=
  (liveSessionTx db s now).map Prod.snd

/-- `RecheckUserStepUpTx`: the step-up is the one the middleware read and still in window, the verifier is the one it
read, and nobody else knows the password. -/
def recheckUserStepUpTx (db : Db) (s : Session) (now : Time) : Except Err Unit := do
  let (stepUp, passwordHash) ← liveSessionTx db s now
  require (s.passwordHash ≠ "" ∧ passwordHash = s.passwordHash ∧ stepUp = s.stepUpRaw) .stepUpInvalid
  let at' ← fetch s.stepUpRaw .stepUpInvalid
  require (now ≤ parseTime at' + stepUpWindow) .stepUpInvalid
  let u ← fetch (db.users.get s.userId) .noRows
  require (u.passwordAdminKnown = false) .passwordAdminKnown

/-- `RecheckUserActionTx`. -/
def recheckUserActionTx (db : Db) (s : Session) (now : Time) : Except Err Unit :=
  if s.ssoIssuer = "" then recheckUserStepUpTx db s now
  else (liveSessionTx db s now).map fun _ => ()

/-- `SessionRole`: the local administrator grant under the session's verified ceiling. -/
def sessionRole (db : Db) (s : Session) : Except Err UserRole := do
  let r ← fetch (db.sessions.get s.id) .noRows
  let u ← fetch (db.users.get s.userId) .noRows
  require (r.userId = u.id ∧ r.revokedAt = none ∧ u.status = .active) .noRows
  pure (if u.role = .admin ∧ u.accountKind = .admin ∧ (r.ssoIssuer = "" ∨ r.ssoAppAdmin = true) then .admin else .user)

/-! ## Statements -/

/-- `UPDATE sessions SET revoked_at=? WHERE p`. -/
def revokeSessions (db : Db) (p : SessionRow → Prop) [DecidablePred p] (now : Time) : Db :=
  { db with sessions := db.sessions.update p fun r => { r with revokedAt := some (format now) } }

/-- `UPDATE devices SET revoked_at=? WHERE p`. -/
def revokeDevices (db : Db) (p : Device → Prop) [DecidablePred p] (now : Time) : Db :=
  { db with devices := db.devices.update p fun d => { d with revokedAt := some (format now) } }

/-- The live sessions and the device credentials of an account: what a disablement, a role change and a reset end. The
identity is not a credential. -/
def endCredentials (db : Db) (userId : UserId) (now : Time) : Db :=
  revokeDevices (revokeSessions db (fun r => r.userId = userId ∧ r.revokedAt = none) now)
    (fun d => d.userId = userId ∧ d.platform ≠ identityPlatform ∧ d.revokedAt = none) now

/-! ## How a session begins -/

/-- `prepareSession`: a day, at most a week. -/
def prepareSession (id : SessionId) (userId : UserId) (now : Time) : SessionRow :=
  { id := id, userId := userId, createdAt := format now, expiresAt := format (now + day),
    hardExpiresAt := format (now + 7 * day), revokedAt := none, stepupAt := none, ssoIssuer := "", ssoClientId := "",
    ssoSubject := "", ssoSid := "", ssoIssuedAt := 0, ssoAppAdmin := false }

/-- `MintPasswordSession`, for an account whose verifier is still the one that was verified. `prepared` is the clock at
the start of the request. -/
def mintPasswordSession (db : Db) (id : SessionId) (userId : UserId) (passwordHash : String) (prepared : Time) :
    Except Err Db := do
  require (∃ u ∈ db.users, u.id = userId ∧ u.status = .active ∧ u.authSecretHash = passwordHash) .sessionInvalid
  let t ← fetch (db.sessions.insert (prepareSession id userId prepared)) .constraint
  pure { db with sessions := t }

/-- `SSOIdentity`. -/
structure SSOIdentity where
  issuer : String
  clientId : String
  subject : String
  sessionId : String
  issuedAt : Stamp
  loginExpires : Time
  appAdmin : Bool
deriving DecidableEq

/-- The fence of `checkSSOIdentityTx`: the logout refuses the login. -/
def fences (e : LogoutEvent) (i : SSOIdentity) : Prop :=
  (e.sid ≠ "" ∧ e.sid = i.sessionId ∧ (e.subject = "" ∨ e.subject = i.subject)) ∨
  (i.sessionId = "" ∧ e.subject ≠ "" ∧ e.subject = i.subject ∧ i.issuedAt ≤ e.issuedAt) ∨
  (e.sid = "" ∧ e.subject = i.subject ∧ i.issuedAt ≤ e.issuedAt)

instance (e : LogoutEvent) (i : SSOIdentity) : Decidable (fences e i) :=
  inferInstanceAs (Decidable (_ ∨ _ ∨ _))

/-- Some logout that is still retained refuses the login. -/
def fenced (db : Db) (i : SSOIdentity) (now : Time) : Prop :=
  ∃ e ∈ db.logoutEvents, e.issuer = i.issuer ∧ e.clientId = i.clientId ∧ format now ≤ e.retainUntil ∧ fences e i

instance (db : Db) (i : SSOIdentity) (now : Time) : Decidable (fenced db i now) :=
  inferInstanceAs (Decidable (∃ e ∈ db.logoutEvents, _))

/-- `checkSSOIdentityTx`: the account, the configuration and the fences. -/
def checkSSOIdentityTx (db : Db) (userId : UserId) (i : SSOIdentity) (now : Time) : Except Err Unit :=
  require ((∃ u ∈ db.users, u.id = userId ∧ u.status = .active ∧ u.ssoIssuer = i.issuer ∧ u.ssoSubject = i.subject) ∧
    (¬∃ d ∈ db.directory, d.issuer = i.issuer ∧ d.subject = i.subject ∧ i.issuedAt ≤ d.revokedBefore) ∧
    (¬∃ c ∈ db.cutoffs, c.issuer = i.issuer ∧ c.subject = i.subject ∧ i.issuedAt ≤ c.revokedBefore) ∧
    db.settings.ssoEnabled = true ∧ db.settings.ssoIssuerUrl = i.issuer ∧ db.settings.ssoClientId = i.clientId ∧
    ¬fenced db i now) .ssoLoginRejected

/-- The row that a login stores. -/
def ssoSession (id : SessionId) (userId : UserId) (i : SSOIdentity) (prepared : Time) : SessionRow :=
  { prepareSession id userId prepared with
    ssoIssuer := i.issuer, ssoClientId := i.clientId, ssoSubject := i.subject, ssoSid := i.sessionId,
    ssoIssuedAt := i.issuedAt, ssoAppAdmin := i.appAdmin }

/-- `MintSSOSession`. -/
def mintSSOSession (db : Db) (id : SessionId) (userId : UserId) (i : SSOIdentity) (prepared now : Time) :
    Except Err Db := do
  require (i.issuer ≠ "" ∧ i.clientId ≠ "" ∧ i.subject ≠ "" ∧ now < i.loginExpires) .ssoLoginRejected
  checkSSOIdentityTx db userId i now
  let t ← fetch (db.sessions.insert (ssoSession id userId i prepared)) .constraint
  pure { db with sessions := t }

/-! ## How a session goes on -/

/-- `ResolveSession` moves the expiry of a session in use to a day after `seen`, at most to its end. -/
def extendSession (db : Db) (id : SessionId) (seen : Time) : Db :=
  { db with
    sessions := db.sessions.update (fun r => r.id = id) fun r =>
      { r with expiresAt := min (format (seen + day)) r.hardExpiresAt } }

/-- `POST /auth/step-up`: the secret is verified against `stored`, then the step-up is stored if that is still the
verifier. -/
def stepUp (cfg : Config) (db : Db) (s : Session) (secret stored : String) (now : Time) : Except Err Db := do
  require (cfg.verifyAuthSecret secret stored = true) .sessionInvalid
  let current ← recheckSessionTx db s now
  require (current = stored) .passwordChanged
  pure { db with
    sessions := db.sessions.update (fun r => r.id = s.id) fun r => { r with stepupAt := some (format now) } }

/-! ## How a session ends -/

/-- `RevokeSession`. -/
def revokeSession (db : Db) (id : SessionId) (now : Time) : Db := revokeSessions db (fun r => r.id = id) now

/-- `POST /auth/logout-all`. -/
def logoutAll (db : Db) (userId : UserId) (now : Time) : Db := revokeSessions db (fun r => r.userId = userId) now

/-- `oidcverify.LogoutClaims`. -/
structure LogoutClaims where
  issuer : String
  subject : String
  sessionId : String
  jwtId : String
  issuedAt : Stamp
  replayUntil : Time
deriving DecidableEq

/-- The scope of `ApplySSOLogout`: the sessions that the logout ends. -/
def LogoutClaims.covers (c : LogoutClaims) (clientId : String) (r : SessionRow) : Prop :=
  r.ssoIssuer = c.issuer ∧ r.ssoClientId = clientId ∧
  ((c.sessionId ≠ "" ∧ r.ssoSid = c.sessionId ∧ (c.subject = "" ∨ r.ssoSubject = c.subject)) ∨
   (c.subject ≠ "" ∧ r.ssoSid = "" ∧ r.ssoSubject = c.subject ∧ r.ssoIssuedAt ≤ c.issuedAt) ∨
   (c.sessionId = "" ∧ r.ssoSubject = c.subject ∧ r.ssoIssuedAt ≤ c.issuedAt))

instance (c : LogoutClaims) (clientId : String) : DecidablePred (c.covers clientId) := fun _ =>
  inferInstanceAs (Decidable (_ ∧ _ ∧ _))

/-- The latest second in which the fence refuses logins. -/
def LogoutClaims.retain (c : LogoutClaims) (now : Time) : Stamp :=
  format (max (now + ssoLoginLifetime) c.replayUntil) + 1

/-- The row of `sso_logout_events` that the logout leaves. -/
def LogoutClaims.event (c : LogoutClaims) (clientId : String) (now : Time) : LogoutEvent :=
  { issuer := c.issuer, clientId := clientId, jti := c.jwtId, subject := c.subject, sid := c.sessionId,
    issuedAt := c.issuedAt, retainUntil := c.retain now }

/-- The devices paired from a session that has ended within the scope. -/
def LogoutClaims.pairedFrom (c : LogoutClaims) (clientId : String) (db : Db) (d : Device) : Prop :=
  d.revokedAt = none ∧ d.ssoSessionId ≠ none ∧
    ∃ r ∈ db.sessions, d.ssoSessionId = some r.id ∧ r.userId = d.userId ∧ r.revokedAt ≠ none ∧ c.covers clientId r

instance (c : LogoutClaims) (clientId : String) (db : Db) : DecidablePred (c.pairedFrom clientId db) := fun _ =>
  inferInstanceAs (Decidable (_ ∧ _ ∧ _))

/-- `ApplySSOLogout`. -/
def applySSOLogout (db : Db) (c : LogoutClaims) (clientId : String) (now : Time) : Except Err Db := do
  require (now < c.replayUntil) .ssoLogoutRejected
  require (db.settings.ssoIssuerUrl = c.issuer ∧ db.settings.ssoClientId = clientId) .ssoLogoutRejected
  let kept := db.logoutEvents.delete fun e => e.retainUntil < format now
  let events ← fetch (kept.insert (c.event clientId now)) .ssoLogoutRejected
  let db := revokeSessions { db with logoutEvents := events } (fun r => r.revokedAt = none ∧ c.covers clientId r) now
  pure (revokeDevices db (c.pairedFrom clientId db) now)

/-- A session that `RunGC` deletes: revoked a day ago or past its end. -/
def collectable (now : Time) (r : SessionRow) : Prop :=
  (r.revokedAt.any fun t => t + format day < format now) = true ∨ r.hardExpiresAt < format now

instance (now : Time) : DecidablePred (collectable now) := fun _ => inferInstanceAs (Decidable (_ ∨ _))

/-- `RunGC` on sessions, with the confirmations that cascade from them. -/
def collectSessions (db : Db) (now : Time) : Db :=
  { db with
    sessions := db.sessions.delete (collectable now)
    challenges := db.challenges.delete fun c => ∃ r ∈ db.sessions, r.id = c.sessionId ∧ collectable now r }

/-- `sso.Store.Save`: a changed issuer or client, or disabling, ends the SSO sessions. `cached` is what the store held. -/
def saveSettings (db : Db) (cached settings : Settings) (now : Time) : Db :=
  let db := { db with settings := settings }
  if settings.ssoIssuerUrl ≠ cached.ssoIssuerUrl ∨ settings.ssoClientId ≠ cached.ssoClientId ∨
      settings.ssoEnabled = false then
    revokeSessions db (fun r => r.ssoIssuer ≠ "" ∧ r.revokedAt = none) now
  else db

end KyNotes.Auth
