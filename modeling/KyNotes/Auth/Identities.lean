import KyNotes.Auth.Sessions

/-!
# Identities and passwords (`httpapi/identity_routes.go`, `httpapi/auth_routes.go`, `httpapi/admin_routes.go`)

A user identity is a `devices` row with platform `identity` and a `user_identities` row that holds its private key
wrapped under the password and under a recovery code. `putIdentity` creates it or resets it, `putRecovery` sets the
recovery-code copy, `changePassword` and `upgradeLogin` move the password copy with the verifier, `recoverAccount` and
`resetPassword` strip it.
-/

namespace KyNotes.Auth

open Relational Check

/-! ## Copies -/

/-- `decodeWrappedIdentity`: 60 bytes. -/
def wrappedIdentityBytes : Nat := 60

/-- `decodeRecoveryCopy`: 76 bytes under the one label. -/
def recoveryWrapBytes : Nat := 76

/-- The recovery-code copy of a request. -/
structure RecoveryCopy where
  wrapAlg : String
  wrappedKey : Bytes
deriving DecidableEq

def RecoveryCopy.good (c : RecoveryCopy) : Prop := c.wrapAlg = recoveryWrapAlg ∧ c.wrappedKey.length = recoveryWrapBytes

instance (c : RecoveryCopy) : Decidable c.good := inferInstanceAs (Decidable (_ ∧ _))

/-- The row holds a password copy. -/
def Identity.hasPasswordCopy (i : Identity) : Prop := i.wrapAlg = identityWrapAlg

instance (i : Identity) : Decidable i.hasPasswordCopy := inferInstanceAs (Decidable (_ = _))

/-- The password copy of an account. -/
def hasPasswordCopy (db : Db) (userId : UserId) : Prop :=
  ∃ i ∈ db.identities, i.userId = userId ∧ i.wrapAlg = identityWrapAlg

instance (db : Db) (userId : UserId) : Decidable (hasPasswordCopy db userId) :=
  inferInstanceAs (Decidable (∃ i ∈ db.identities, _))

/-- `stripPasswordWrapTx`: only the password copy goes. -/
def stripPasswordWrap (db : Db) (userId : UserId) : Db :=
  { db with
    identities := db.identities.update (fun i => i.userId = userId ∧ i.wrapAlg = identityWrapAlg) fun i =>
      { i with wrapAlg := deviceOnlyWrapAlg, wrappedPrivateKey := [] } }

/-- `adminKnownSSOAccount`. -/
def adminKnownSSOAccount (db : Db) (userId : UserId) : Prop :=
  ∃ u ∈ db.users, u.id = userId ∧ u.ssoSubject ≠ "" ∧ u.passwordAdminKnown = true

instance (db : Db) (userId : UserId) : Decidable (adminKnownSSOAccount db userId) :=
  inferInstanceAs (Decidable (∃ u ∈ db.users, _))

/-! ## Create and reset -/

/-- The body of `PUT /me/identity`, decoded. `expectedDeviceId` is absent, empty or an id. -/
structure IdentityPut where
  publicKey : Bytes
  wrapAlg : String
  wrappedPrivateKey : Bytes
  replace : Bool
  expectedDeviceId : Option (Option DeviceId)
  recovery : Option RecoveryCopy
deriving DecidableEq

/-- The checks on the body: an SSO session stores no password copy, a reset carries its recovery-code copy. -/
def IdentityPut.wellFormed (p : IdentityPut) (sso : Bool) : Prop :=
  p.publicKey.length = 32 ∧
  ((sso = false ∧ p.wrapAlg = identityWrapAlg ∧ p.wrappedPrivateKey.length = wrappedIdentityBytes) ∨
    ((sso = true ∨ p.replace = true) ∧ p.wrapAlg = deviceOnlyWrapAlg ∧ p.wrappedPrivateKey = [])) ∧
  (if p.replace = true then (p.recovery.any fun c => c.good) = true ∧ p.expectedDeviceId.isSome = true
   else p.recovery = none ∧ p.expectedDeviceId = none)

instance (p : IdentityPut) (sso : Bool) : Decidable (p.wellFormed sso) := by
  unfold IdentityPut.wellFormed
  split <;> infer_instance

/-- `identityResetsPerDay`. -/
def identityResetsPerDay : Nat := 3

/-- The resets that `checkResetLimitTx` counts. -/
def resetsToday (db : Db) (userId : UserId) (now : Time) : Nat :=
  db.resets.countP fun a => a.userId = userId ∧ format (now - day) < a.createdAt

/-- `deleteIdentityTx`: the identity device goes, and the row with its copies cascades from it. -/
def deleteIdentity (db : Db) (userId : UserId) : Db :=
  { db with
    devices := db.devices.delete fun d => d.userId = userId ∧ d.platform = identityPlatform
    identities := db.identities.delete fun i =>
      ∃ d ∈ db.devices, d.id = i.deviceId ∧ d.userId = userId ∧ d.platform = identityPlatform }

/-- The reset part of `PUT /me/identity`. -/
def resetIdentity (db : Db) (s : Session) (p : IdentityPut) (fp : Digest) (now : Time) : Except Err Db := do
  require (resetsToday db s.userId now < identityResetsPerDay) .resetLimit
  -- only the identity that this browser saw listed is replaced
  require (p.expectedDeviceId = some ((db.identities.get s.userId).map Identity.deviceId)) .recoveryMoved
  let db := revokeSessions db (fun r => r.userId = s.userId ∧ r.id ≠ s.id ∧ r.revokedAt = none) now
  let db := revokeDevices db
    (fun d => d.userId = s.userId ∧ d.platform ≠ identityPlatform ∧ d.revokedAt = none) now
  require (∀ d ∈ db.devices, d.userId = s.userId → d.platform = identityPlatform → d.fingerprint ≠ fp) .identityExists
  pure { deleteIdentity db s.userId with resets := db.resets ++ [⟨s.userId, format now⟩] }

/-- The rows of a new identity. -/
def insertIdentity (db : Db) (s : Session) (p : IdentityPut) (fp : Digest) (deviceId : DeviceId)
    (recoveryId : RecoveryId) (unusable : String) : Except Err Db := do
  require (∀ d ∈ db.devices, ¬(d.userId = s.userId ∧ (d.platform = identityPlatform ∨ d.fingerprint = fp)))
    .identityExists
  require (∃ u ∈ db.users, u.id = s.userId ∧ u.accountKind = .user) .constraint
  let devices ← fetch (db.devices.insert
    { id := deviceId, userId := s.userId, publicKey := p.publicKey, fingerprint := fp, secretHash := unusable,
      labelCiphertext := [], platform := identityPlatform, revokedAt := none, ssoSessionId := none }) .constraint
  let identities ← fetch (db.identities.insert
    { userId := s.userId, deviceId := deviceId, wrappedPrivateKey := p.wrappedPrivateKey, wrapAlg := p.wrapAlg,
      recoveryId := p.recovery.map fun _ => recoveryId, recoveryAlg := (p.recovery.map RecoveryCopy.wrapAlg).getD "",
      recoveryWrappedKey := (p.recovery.map RecoveryCopy.wrappedKey).getD [] }) .constraint
  pure { db with devices := devices, identities := identities }

/-- `PUT /me/identity`. -/
def putIdentity (cfg : Config) (db : Db) (s : Session) (p : IdentityPut) (deviceId : DeviceId) (recoveryId : RecoveryId)
    (unusable : String) (now : Time) : Except Err Db := do
  let sso : Bool := s.ssoIssuer ≠ ""
  require (p.wellFormed sso) .invalidRequest
  let fp := cfg.sha256 p.publicKey
  recheckUserActionTx db s now
  if p.replace = true then do
    if sso = false then do
      let u ← fetch (db.users.get s.userId) .noRows
      require ((u.ssoSubject ≠ "") ↔ p.wrapAlg = deviceOnlyWrapAlg) (.resetWrap (u.ssoSubject ≠ ""))
    let db ← resetIdentity db s p fp now
    insertIdentity db s p fp deviceId recoveryId unusable
  else insertIdentity db s p fp deviceId recoveryId unusable

/-! ## The recovery-code copy -/

/-- The body of `PUT /me/identity/recovery`. -/
structure RecoveryPut where
  deviceId : DeviceId
  expectedRecoveryId : Option RecoveryId
  copy : RecoveryCopy
deriving DecidableEq

/-- `PUT /me/identity/recovery`: a re-send of the stored copy is that upload; otherwise only the copy that this browser
last saw, of the identity that it holds, is replaced. -/
def putRecovery (db : Db) (s : Session) (p : RecoveryPut) (next : RecoveryId) (now : Time) : Except Err Db := do
  require p.copy.good .invalidRequest
  recheckUserActionTx db s now
  let i ← fetch (db.identities.get s.userId) .identityMissing
  if i.deviceId = p.deviceId ∧ i.recoveryId ≠ none ∧ i.recoveryWrappedKey = p.copy.wrappedKey then pure db
  else do
    require (i.deviceId = p.deviceId ∧ i.recoveryId = p.expectedRecoveryId) .recoveryMoved
    pure { db with
      identities := db.identities.update (fun x => x.userId = s.userId ∧ x.recoveryId = i.recoveryId) fun x =>
        { x with recoveryId := some next, recoveryAlg := p.copy.wrapAlg, recoveryWrappedKey := p.copy.wrappedKey } }

/-! ## Passwords -/

/-- The body of a password change or upgrade: the new verifier, and the password copy re-wrapped for it with the
identity it is of. -/
structure PasswordPut where
  currentAuthSecret : String
  newAuthSecret : String
  newLoginSalt : String
  iterations : Nat
  wrapped : Option (Bytes × DeviceId)
deriving DecidableEq

def PasswordPut.wellFormed (p : PasswordPut) : Prop :=
  p.currentAuthSecret.utf8ByteSize = 64 ∧ p.newAuthSecret.utf8ByteSize = 64 ∧ p.newLoginSalt ≠ "" ∧
  loginIterations ≤ p.iterations ∧ p.iterations ≤ 1000000 ∧
  (p.wrapped.all fun w => w.1.length = wrappedIdentityBytes) = true

instance (p : PasswordPut) : Decidable p.wellFormed := inferInstanceAs (Decidable (_ ∧ _ ∧ _ ∧ _ ∧ _ ∧ _))

/-- `UPDATE users SET auth_secret_hash, login_salt, login_iterations`, with the flag and the recovery hash that the
statement sets or keeps. -/
def setVerifier (db : Db) (userId : UserId) (hash salt : String) (iterations : Nat) (adminKnown : User → Bool)
    (recoveryHash : User → String) : Db :=
  { db with
    users := db.users.update (fun u => u.id = userId) fun u =>
      { u with
        authSecretHash := hash, loginSalt := salt, loginIterations := iterations
        passwordAdminKnown := adminKnown u, recoveryHash := recoveryHash u } }

/-- The statement that stores a password copy, for the identity that meets the guard; it must hit one row. -/
def writeWrap (db : Db) (userId : UserId) (w : Bytes × DeviceId) (guard : Identity → Prop) [DecidablePred guard] :
    Except Err Db := do
  require (∃ i ∈ db.identities, i.userId = userId ∧ i.deviceId = w.2 ∧ guard i) .identityRewrap
  pure { db with
    identities := db.identities.update (fun i => i.userId = userId ∧ i.deviceId = w.2 ∧ guard i) fun i =>
      { i with wrappedPrivateKey := w.1, wrapAlg := identityWrapAlg } }

/-- `passwordCopyAddableSQL`: a reset stripped the copy, and the account has no KySignOn subject. -/
def passwordCopyAddable (db : Db) (i : Identity) : Prop :=
  i.wrapAlg = deviceOnlyWrapAlg ∧ ¬∃ u ∈ db.users, u.id = i.userId ∧ u.ssoSubject ≠ ""

instance (db : Db) : DecidablePred (passwordCopyAddable db) := fun _ => inferInstanceAs (Decidable (_ ∧ _))

/-- `POST /auth/password`. `stored` is the verifier that the current secret was verified against, `salt` that of the new
hash, `confirmed` a KySignOn confirmation of this request. -/
def changePassword (cfg : Config) (db : Db) (s : Session) (p : PasswordPut) (stored : String) (confirmed : Bool)
    (salt : Nat) (now : Time) : Except Err Db := do
  require p.wellFormed .invalidRequest
  require (cfg.verifyAuthSecret p.currentAuthSecret stored = true) .sessionInvalid
  let current ← recheckSessionTx db s now
  require (current = stored) .passwordChanged
  require (¬(adminKnownSSOAccount db s.userId ∧ confirmed = false)) .ssoConfirmationRequired
  require (¬(hasPasswordCopy db s.userId ∧ p.wrapped = none)) .identityRewrap
  let copied : Bool := hasPasswordCopy db s.userId
  let db := setVerifier db s.userId (cfg.hashAuthSecret p.newAuthSecret salt) p.newLoginSalt p.iterations
    (fun _ => false) User.recoveryHash
  -- a step-up proved the old password
  let db := { db with
    sessions := db.sessions.update (fun r => r.userId = s.userId) fun r => { r with stepupAt := none } }
  let db := revokeSessions db (fun r => r.userId = s.userId ∧ r.id ≠ s.id ∧ r.revokedAt = none) now
  let db := revokeDevices db
    (fun d => d.userId = s.userId ∧ d.platform ≠ identityPlatform ∧ d.revokedAt = none) now
  match p.wrapped with
  | none => pure db
  | some w =>
    if copied = true then writeWrap db s.userId w fun i => i.wrapAlg = identityWrapAlg
    else writeWrap db s.userId w (passwordCopyAddable db)

/-- `POST /auth/login-upgrade`: a verifier with fewer iterations is replaced once; it revokes nothing. -/
def upgradeLogin (cfg : Config) (db : Db) (s : Session) (p : PasswordPut) (stored : String) (salt : Nat) (now : Time) :
    Except Err Db := do
  require p.wellFormed .invalidRequest
  require (cfg.verifyAuthSecret p.currentAuthSecret stored = true) .sessionInvalid
  let current ← recheckSessionTx db s now
  require (current = stored) .passwordChanged
  let u ← fetch (db.users.get s.userId) .noRows
  require (u.loginIterations < loginIterations) .upgraded
  require (hasPasswordCopy db s.userId ↔ p.wrapped ≠ none) .identityRewrap
  let db := setVerifier db s.userId (cfg.hashAuthSecret p.newAuthSecret salt) p.newLoginSalt p.iterations
    User.passwordAdminKnown User.recoveryHash
  match p.wrapped with
  | none => pure db
  | some w => writeWrap db s.userId w fun i => i.wrapAlg = identityWrapAlg

/-- The body of `POST /auth/recover`. -/
structure RecoverPut where
  recoveryCode : String
  newAuthSecret : String
  newLoginSalt : String
  iterations : Nat
deriving DecidableEq

/-- `POST /auth/recover`, for the account whose recovery hash `stored` the code was verified against. `nextHash` is that
of the next code. -/
def recoverAccount (cfg : Config) (db : Db) (userId : UserId) (p : RecoverPut) (stored nextHash : String) (salt : Nat)
    (now : Time) : Except Err Db := do
  require (p.newAuthSecret.utf8ByteSize = 64 ∧ loginIterations ≤ p.iterations ∧ p.iterations ≤ 1000000) .invalidRequest
  require (stored ≠ "" ∧ cfg.verifyRecoveryCode p.recoveryCode stored = true) .noRows
  require (∃ u ∈ db.users, u.id = userId ∧ u.recoveryHash = stored) .noRows
  let db := setVerifier db userId (cfg.hashAuthSecret p.newAuthSecret salt) p.newLoginSalt p.iterations
    (fun _ => false) (fun _ => nextHash)
  let db := revokeSessions db (fun r => r.userId = userId) now
  let db := stripPasswordWrap db userId
  pure (revokeDevices db (fun d => d.userId = userId ∧ d.platform ≠ identityPlatform) now)

/-- `POST /admin/users/{id}/password`. -/
def resetPassword (cfg : Config) (db : Db) (userId : UserId) (newAuthSecret newLoginSalt : String) (iterations : Nat)
    (salt : Nat) (now : Time) : Except Err Db := do
  require (newAuthSecret.utf8ByteSize = 64 ∧ newLoginSalt ≠ "" ∧ loginIterations ≤ iterations ∧ iterations ≤ 1000000)
    .invalidRequest
  let db := setVerifier db userId (cfg.hashAuthSecret newAuthSecret salt) newLoginSalt iterations (fun _ => true)
    User.recoveryHash
  let db := revokeSessions db (fun r => r.userId = userId) now
  let db := revokeDevices db
    (fun d => d.userId = userId ∧ d.platform ≠ identityPlatform ∧ d.revokedAt = none) now
  pure (stripPasswordWrap db userId)

end KyNotes.Auth
