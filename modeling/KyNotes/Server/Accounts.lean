import KyNotes.Server.TeamKeys

/-!
# Accounts, devices and identities (`admin_routes.go`, `device_routes.go`, `identity_routes.go`, `sso_directory.go`)

The statements of these handlers on users, devices and the rows that cascade from them. Sessions, passwords, recovery
codes and audit rows are left out: no modelled handler reads them, and the verdict of a session, step-up or rate check
is a parameter.
-/

namespace KyNotes

open Relational Check

/-! ## Users -/

/-- An account created by setup, an administrator, an SSO login or the directory. -/
def createUser (k : KeyTables) (id : UserId) (accountKind : AccountKind) (status : Status) : Except Err KeyTables := do
  let t ← fetch (k.users.insert ⟨id, accountKind, status, 0⟩) .internal
  pure { k with users := t }

/-- `UPDATE devices SET revoked_at=? WHERE platform<>'identity' AND revoked_at='' AND p`. -/
def revokeDevices (k : KeyTables) (p : Device → Prop) [DecidablePred p] (now : Stamp) : KeyTables :=
  { k with
    devices := k.devices.update (fun d => d.identity = false ∧ d.revokedAt = none ∧ p d) fun d =>
      { d with revokedAt := some now } }

/-- `DELETE FROM key_envelopes WHERE device_id IN (SELECT id FROM devices WHERE user_id=? AND platform<>'identity')`. -/
def deleteDeviceEnvelopes (k : KeyTables) (userId : UserId) : KeyTables :=
  { k with
    keyEnvelopes := k.keyEnvelopes.delete fun e =>
      ∃ d ∈ k.devices, d.id = e.deviceId ∧ d.userId = userId ∧ d.identity = false }

/-- `PATCH /admin/users/{id}`: disabling an account ends its device credentials. -/
def patchUser (k : KeyTables) (id : UserId) (status : Status) (quotaBytes : Nat) (now : Stamp) :
    Except Err KeyTables := do
  let _ ← fetch (k.users.get id) .noRows
  let t := k.users.update (fun u => u.id = id) fun u => { u with status := status, quotaBytes := quotaBytes }
  let k₁ := { k with users := t }
  pure (if status = .disabled then deleteDeviceEnvelopes (revokeDevices k₁ (fun d => d.userId = id) now) id else k₁)

/-- An administrator's password reset and account recovery: the device credentials and their envelopes go. -/
def resetPassword (k : KeyTables) (id : UserId) (now : Stamp) : KeyTables :=
  deleteDeviceEnvelopes (revokeDevices k (fun d => d.userId = id) now) id

/-- A password change, an SSO logout or a directory change: the device credentials end, their envelopes stay. -/
def endCredentials (k : KeyTables) (ids : List DeviceId) (now : Stamp) : KeyTables :=
  revokeDevices k (fun d => d.id ∈ ids) now

/-- The directory sets an account's status. -/
def setStatus (k : KeyTables) (id : UserId) (status : Status) : KeyTables :=
  { k with users := k.users.update (fun u => u.id = id) fun u => { u with status := status } }

/-! ## Devices -/

/-- `POST /devices/register`: a known key of the same user is its old device again. -/
def registerDevice (k : KeyTables) (userId : UserId) (deviceId : DeviceId) (fingerprint : Nat) :
    Except Err KeyTables := do
  require (∃ u ∈ k.users, u.id = userId ∧ u.accountKind = .user ∧ u.status = .active) .noRows
  if ∃ d ∈ k.devices, d.userId = userId ∧ d.fingerprint = fingerprint ∧ d.identity = false then
    let t := k.devices.update (fun d => d.userId = userId ∧ d.fingerprint = fingerprint ∧ d.identity = false) fun d =>
      { d with revokedAt := none }
    pure { k with devices := t }
  else do
    -- `idx_devices_user_fingerprint`: the identity may have this key
    require (¬∃ d ∈ k.devices, d.userId = userId ∧ d.fingerprint = fingerprint) .internal
    let t ← fetch (k.devices.insert ⟨deviceId, userId, fingerprint, false, none⟩) .internal
    pure { k with devices := t }

/-- `DELETE /devices/{id}`. -/
def revokeDevice (k : KeyTables) (userId : UserId) (deviceId : DeviceId) (now : Stamp) : Except Err KeyTables := do
  require (∃ d ∈ k.devices, d.id = deviceId ∧ d.userId = userId ∧ d.identity = false) .noRows
  let t := k.devices.update (fun d => d.id = deviceId) fun d => { d with revokedAt := some now }
  pure { k with devices := t, keyEnvelopes := k.keyEnvelopes.delete fun e => e.deviceId = deviceId }

/-! ## Identities -/

/-- The end of `PUT /me/identity`: one identity a user, with a key no device of the user has. -/
def insertIdentity (k : KeyTables) (userId : UserId) (deviceId : DeviceId) (fingerprint : Nat) :
    Except Err KeyTables := do
  require (¬∃ d ∈ k.devices, d.userId = userId ∧ (d.identity = true ∨ d.fingerprint = fingerprint)) .identityExists
  let t ← fetch (k.devices.insert ⟨deviceId, userId, fingerprint, true, none⟩) .internal
  let i ← fetch (k.userIdentities.insert ⟨userId, deviceId⟩) .internal
  pure { k with devices := t, userIdentities := i }

/-- `PUT /me/identity` without `replace`. -/
def createIdentity (k : KeyTables) (userId : UserId) (stepUp : Bool) (deviceId : DeviceId) (fingerprint : Nat) :
    Except Err KeyTables := do
  require (stepUp = true) .stepUpInvalid
  insertIdentity k userId deviceId fingerprint

/-- The user's identity device. -/
def identityDevice (k : KeyTables) (userId : UserId) : Option Device :=
  k.devices.rows.find? fun d => d.userId = userId ∧ d.identity = true

/-- `deleteIdentityTx`: the identity with its envelopes and copies, which cascade. -/
def deleteIdentityTx (k : KeyTables) (userId : UserId) : KeyTables :=
  let gone := fun id => ∃ d ∈ k.devices, d.id = id ∧ d.userId = userId ∧ d.identity = true
  { k with
    devices := k.devices.delete fun d => d.userId = userId ∧ d.identity = true
    userIdentities := k.userIdentities.delete fun i => gone i.deviceId
    keyEnvelopes := k.keyEnvelopes.delete fun e => gone e.deviceId
    invitationEnvelopes := k.invitationEnvelopes.delete fun e => gone e.deviceId }

/-- `PUT /me/identity` with `replace`: only the identity the browser saw listed is replaced, and every keyed notebook
of the user moves to a new generation. `resetOk` is the verdict of `checkResetLimitTx` and of the check of the kind of
copy. -/
def resetIdentity (k : KeyTables) (userId : UserId) (stepUp resetOk : Bool) (expected : Option DeviceId)
    (deviceId : DeviceId) (fingerprint : Nat) (now : Stamp) : Except Err KeyTables := do
  require (stepUp = true) .stepUpInvalid
  require (resetOk = true) .resetLimit
  require ((k.userIdentities.get userId).map UserIdentity.deviceId = expected) .recoveryMoved
  let k₁ := deleteDeviceEnvelopes (revokeDevices k (fun d => d.userId = userId) now) userId
  let k₂ := retireKeysTx k₁ userId
  -- the old key may sit in a stolen browser: resetting to it cuts nothing off
  require ((identityDevice k₂ userId).map Device.fingerprint ≠ some fingerprint) .identityExists
  insertIdentity (deleteIdentityTx k₂ userId) userId deviceId fingerprint

end KyNotes
