import KyNotes.Lib.Check
import KyNotes.Server.Schema

/-!
# Accounts, sessions and single sign-on: the rows

The rows that the handlers of `internal/auth` and the account routes of `internal/httpapi` read and write, from
`internal/storage/migrations`: a second view of the database of `Server/Schema`, with the columns that decide who is
signed in and by what proof. Token and CSRF hashes are left out: a request carries the session that its cookie
resolved to. Audit rows are left out but for those that `checkResetLimitTx` counts.

A Unix time and RFC 3339 text are both whole seconds (`Stamp`). An issue time is that of a verified token, never Go's
zero time.
-/

namespace KyNotes.Auth

open Relational

abbrev SessionId := Nat
abbrev ChallengeId := Nat
abbrev RecoveryId := Nat

/-- `users.role`: the administrator grant. -/
inductive UserRole | user | admin
deriving DecidableEq, Repr

/-- The scope of a KySignOn confirmation, `stepUpAdmin` or `stepUpUser`. -/
inductive Scope | admin | user
deriving DecidableEq, Repr

structure User where
  id : UserId
  username : String
  authSecretHash : String
  loginSalt : String
  loginIterations : Nat
  recoveryHash : String
  role : UserRole
  accountKind : AccountKind
  status : Status
  quotaBytes : Nat
  ssoSubject : String
  ssoIssuer : String
  passwordAdminKnown : Bool
deriving DecidableEq

/-- A row of `sessions`; `Session` is what the middleware reads of one. -/
structure SessionRow where
  id : SessionId
  userId : UserId
  createdAt : Stamp
  expiresAt : Stamp
  hardExpiresAt : Stamp
  revokedAt : Option Stamp
  stepupAt : Option Stamp
  ssoIssuer : String
  ssoClientId : String
  ssoSubject : String
  ssoSid : String
  ssoIssuedAt : Stamp
  ssoAppAdmin : Bool
deriving DecidableEq

structure Device where
  id : DeviceId
  userId : UserId
  publicKey : Bytes
  fingerprint : Digest
  secretHash : String
  labelCiphertext : Bytes
  platform : String
  revokedAt : Option Stamp
  /-- The SSO session that the device was paired from. -/
  ssoSessionId : Option SessionId
deriving DecidableEq

/-- A row of `user_identities`. -/
structure Identity where
  userId : UserId
  deviceId : DeviceId
  wrappedPrivateKey : Bytes
  wrapAlg : String
  recoveryId : Option RecoveryId
  recoveryAlg : String
  recoveryWrappedKey : Bytes
deriving DecidableEq

/-- A row of `sso_logout_events`: a fence against logins in flight. -/
structure LogoutEvent where
  issuer : String
  clientId : String
  jti : String
  subject : String
  sid : String
  issuedAt : Stamp
  retainUntil : Stamp
deriving DecidableEq

@[reducible] def LogoutEvent.key (e : LogoutEvent) : String × String × String := (e.issuer, e.clientId, e.jti)

/-- A row of `sso_directory_state`. -/
structure DirectoryState where
  issuer : String
  subject : String
  revision : Nat
  digest : Digest
  active : Bool
  eventId : String
  revokedBefore : Stamp
deriving DecidableEq

@[reducible] def DirectoryState.key (d : DirectoryState) : String × String := (d.issuer, d.subject)

structure SyncEvent where
  eventId : String
  expiresAt : Stamp
  issuer : String
  digest : Digest
deriving DecidableEq

structure LoginCutoff where
  issuer : String
  subject : String
  revokedBefore : Stamp
deriving DecidableEq

@[reducible] def LoginCutoff.key (c : LoginCutoff) : String × String := (c.issuer, c.subject)

/-- A row of `sso_stepup`: a KySignOn confirmation of one request. -/
structure Challenge where
  id : ChallengeId
  sessionId : SessionId
  action : Digest
  scope : Scope
  createdAt : Stamp
  expiresAt : Stamp
  started : Bool
  verified : Bool
  authTime : Stamp
  proofSid : String
  proofIat : Stamp
deriving DecidableEq

structure PairingNonce where
  nonce : Digest
  purpose : String
  userId : UserId
  usedAt : Stamp
  expiresAt : Stamp
deriving DecidableEq

/-- The rows of `server_settings` that single sign-on reads. -/
structure Settings where
  ssoEnabled : Bool
  ssoIssuerUrl : String
  ssoClientId : String
  ssoHmacSecret : String
deriving DecidableEq

/-- An `identity.create` audit row of a reset, as `checkResetLimitTx` counts them. -/
structure ResetAudit where
  userId : UserId
  createdAt : Stamp
deriving DecidableEq

structure Db where
  users : Table User.id
  sessions : Table SessionRow.id
  devices : Table Device.id
  identities : Table Identity.userId
  logoutEvents : Table LogoutEvent.key
  directory : Table DirectoryState.key
  syncEvents : Table SyncEvent.eventId
  cutoffs : Table LoginCutoff.key
  challenges : Table Challenge.id
  nonces : Table PairingNonce.nonce
  settings : Settings
  resets : List ResetAudit

/-- The database of a new installation. -/
def Db.init : Db := ⟨.empty, .empty, .empty, .empty, .empty, .empty, .empty, .empty, .empty, .empty, ⟨false, "", "", ""⟩, []⟩

/-- What the handlers compute with other packages and with constants of the configuration. -/
structure Config where
  sha256 : Bytes → Digest
  /-- `HashAuthSecret` with its random salt. -/
  hashAuthSecret : String → Nat → String
  verifyAuthSecret : String → String → Bool
  verifyRecoveryCode : String → String → Bool
  /-- `strings.ToLower`. -/
  toLower : String → String
  /-- A name without surrounding space, control or format characters. -/
  printable : String → Bool

inductive Err
  | sessionInvalid | stepUpInvalid | passwordAdminKnown | ssoLoginRejected | ssoLogoutRejected | noRows
  | stepUpPending (challenge : ChallengeId) | rateLimited
  | actorRevoked | invalidRequest | notFound | accountKindMismatch
  | configurationChanged | versionConflict | eventConflict | subjectConflict
  | identityExists | identityRewrap | passwordChanged | upgraded | identityMissing | recoveryMoved
  | resetLimit | resetWrap (linked : Bool) | ssoConfirmationRequired
  | invalidToken | expiredToken | unboundToken
  /-- A constraint, a trigger or a foreign key of the schema. -/
  | constraint
deriving DecidableEq, Repr

/-! ## Windows and labels -/

/-- `SSOLoginLifetime`: 5 minutes. -/
def ssoLoginLifetime : Time := 300 * second

/-- `StepUpWindow`: 10 minutes. -/
def stepUpWindow : Time := 600 * second

/-- `auth.LoginIterations`. -/
def loginIterations : Nat := 600000

def identityWrapAlg : String := "aes-256-gcm"

def deviceOnlyWrapAlg : String := "none"

def recoveryWrapAlg : String := "pbkdf2-sha256-600000/aes-256-gcm"

/-- The `platform` of the device row that an identity owns. -/
def identityPlatform : String := "identity"

end KyNotes.Auth
