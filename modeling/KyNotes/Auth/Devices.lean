import KyNotes.Auth.Sessions

/-!
# Paired devices (`auth/pairing.go`, `httpapi/device_routes.go`)

A signed-in browser draws a pairing token (`mintSessionPairingToken`); a device presents it once for a credential
(`registerDevice`). The signature of a token is ideal: a token that verifies is one that the server has signed, so a
token is its claims and `World.issued` holds those that were signed.
-/

namespace KyNotes.Auth

open Relational Check

/-- `PairingClaims`. `exp` is a Unix time, `sessionId` is empty only in tokens from before sessions were bound. -/
structure PairingClaims where
  sub : UserId
  exp : Stamp
  nonce : Bytes
  purpose : String
  sessionId : Option SessionId
deriving DecidableEq

/-- `MintSessionPairingToken`, for a session that is at most five minutes old. -/
def mintSessionPairingToken (s : Session) (nonce : Bytes) (now : Time) : Except Err PairingClaims := do
  require (now < s.createdAt + 300 * second) .invalidRequest
  pure { sub := s.userId, exp := format (now + 120 * second), nonce := nonce, purpose := "device-pair",
         sessionId := some s.id }

/-- What a registration sends besides the token. -/
structure Registration where
  publicKey : Bytes
  platform : String
  labelCiphertext : Bytes
  secretHash : String
deriving DecidableEq

/-- The session that authorised the token is live. -/
def authorised (db : Db) (c : PairingClaims) (now : Time) (r : SessionRow) : Prop :=
  r ∈ db.sessions ∧ c.sessionId = some r.id ∧ r.userId = c.sub ∧ r.revokedAt = none ∧ format now < r.expiresAt ∧
    format now < r.hardExpiresAt

/-- The SSO session that a token binds its device to, if the token may still be used. -/
def originSession (db : Db) (c : PairingClaims) (subject : String) (now : Time) : Except Err (Option SessionId) :=
  match c.sessionId with
  | none => do
    -- a token from before the upgrade cannot prove whether its SSO login has ended
    require (subject = "") .unboundToken
    pure none
  | some sid => do
    let r ← fetch (db.sessions.get sid) .noRows
    require (r.userId = c.sub ∧ r.revokedAt = none ∧ format now < r.expiresAt ∧ format now < r.hardExpiresAt) .noRows
    pure (if r.ssoIssuer = "" then none else some sid)

/-- The stored form of a registration: a known key of the account is its old device again. -/
def storeDevice (cfg : Config) (db : Db) (c : PairingClaims) (g : Registration) (origin : Option SessionId)
    (id : DeviceId) : Except Err (Table Device.id) := do
  let fp := cfg.sha256 g.publicKey
  match db.devices.rows.find? fun d => d.userId = c.sub ∧ d.fingerprint = fp ∧ d.platform ≠ identityPlatform with
  | some old =>
    pure (db.devices.update (fun d => d.id = old.id) fun d =>
      { d with
        publicKey := g.publicKey, secretHash := g.secretHash, labelCiphertext := g.labelCiphertext
        platform := g.platform, revokedAt := none, ssoSessionId := origin })
  | none =>
    require (∀ d ∈ db.devices, ¬(d.userId = c.sub ∧ d.fingerprint = fp)) .constraint
    fetch (db.devices.insert
      { id := id, userId := c.sub, publicKey := g.publicKey, fingerprint := fp, secretHash := g.secretHash,
        labelCiphertext := g.labelCiphertext, platform := g.platform, revokedAt := none, ssoSessionId := origin })
      .constraint

/-- `POST /devices/register`, for a token whose signature verifies. `seen` is the clock of `ParsePairingToken`, read
before the transaction. -/
def registerDevice (cfg : Config) (db : Db) (c : PairingClaims) (g : Registration) (id : DeviceId) (seen now : Time) :
    Except Err Db := do
  require (g.platform ≠ identityPlatform ∧ g.publicKey.length = 32 ∧ g.labelCiphertext.length ≤ 4096) .invalidRequest
  require (c.purpose = "device-pair" ∧ format seen ≤ c.exp) .invalidToken
  require (now < parseTime c.exp) .expiredToken
  let u ← fetch (db.users.get c.sub) .noRows
  -- the trigger `devices_everyday_only` repeats the test on the kind
  require (u.accountKind = .user ∧ u.status = .active) .noRows
  let origin ← originSession db c u.ssoSubject now
  let nonces ← fetch (db.nonces.insert ⟨cfg.sha256 c.nonce, c.purpose, c.sub, format now, c.exp⟩) .constraint
  let devices ← storeDevice cfg db c g origin id
  pure { db with nonces := nonces, devices := devices }

/-- `DELETE /devices/{id}`. -/
def revokeDevice (db : Db) (s : Session) (id : DeviceId) (now : Time) : Except Err Db := do
  require (∃ d ∈ db.devices, d.id = id ∧ d.userId = s.userId ∧ d.platform ≠ identityPlatform) .notFound
  pure (revokeDevices db (fun d => d.id = id) now)

end KyNotes.Auth
