import KyNotes.Lib.Run
import KyNotes.Auth.Confirmations
import KyNotes.Auth.Directory
import KyNotes.Auth.Devices
import KyNotes.Auth.Identities

/-!
# The sign-in system

`World` is the database with the clock, the supply of identifiers and the pairing tokens that the server has signed.
Every request ends in one transaction under the writer lock, so an interleaving of requests is a sequence of
transactions (`Op`), and whatever a request has read before is an argument of its transaction: the session of its
cookie, the verifier that a secret was verified against, the settings, an earlier clock. `tx` is the transaction, `step`
its commit or rollback; the clock never goes back. Checks that a handler makes before its transaction and does not
repeat (rate limits, CSRF, the lockout) only drop requests, and are left out.

`history` records the transactions that a run has committed.
-/

namespace KyNotes.Auth

open Relational Check Transition

structure World where
  db : Db
  clock : Time
  /-- The supply of `ids.Mint`. -/
  next : Nat
  /-- The pairing tokens that the server has signed. -/
  issued : List PairingClaims

/-- A server that was just installed. -/
def World.init : World := ⟨.init, 0, 0, []⟩

inductive Op
  /-- Time passes. -/
  | tick (d : Time)
  | saveSettings (cached settings : Settings)
  /-- An account that setup, an administrator, the command line or an SSO login creates. -/
  | createAccount (u : User)
  | login (userId : UserId) (secret stored : String) (prepared : Time)
  | ssoLogin (userId : UserId) (i : SSOIdentity) (prepared : Time)
  | extendSession (id : SessionId) (seen : Time)
  | stepUp (s : Session) (secret stored : String)
  | revokeSession (id : SessionId)
  | logoutAll (userId : UserId)
  | collectSessions
  | ssoLogout (c : LogoutClaims) (clientId : String)
  | requireSSOStepUp (s : Session) (action : Digest) (scope : Scope) (allow : Bool)
  | beginSSOStepUp (s : Session) (id : ChallengeId) (seen : Time)
  | cancelSSOStepUp (s : Session) (id : ChallengeId)
  | completeSSOStepUp (s : Session) (id : ChallengeId) (i : SSOIdentity) (authTime : Stamp)
  | consumeSSOStepUp (s : Session) (id : ChallengeId) (action : Digest) (scope : Scope)
  | deliver (settings : Settings) (e : Delivery) (hash salt : String)
  | patchUser (s : Session) (id : UserId) (role : UserRole) (status : Status) (quotaBytes : Nat)
  | grantAdmin (userId : UserId) (issuer subject : String)
  | mintPairing (s : Session) (nonce : Bytes) (seen : Time)
  | register (c : PairingClaims) (g : Registration) (seen : Time)
  | revokeDevice (s : Session) (id : DeviceId)
  | putIdentity (s : Session) (p : IdentityPut) (unusable : String)
  | putRecovery (s : Session) (p : RecoveryPut)
  | changePassword (s : Session) (p : PasswordPut) (stored : String) (confirmed : Bool) (salt : Nat)
  | upgradeLogin (s : Session) (p : PasswordPut) (stored : String) (salt : Nat)
  | recoverAccount (userId : UserId) (p : RecoverPut) (stored nextHash : String) (salt : Nat)
  | resetPassword (userId : UserId) (newAuthSecret newLoginSalt : String) (iterations salt : Nat)
deriving DecidableEq

variable (cfg : Config)

/-- The transaction of a request; every new row takes its identifier from the supply. -/
def tx (w : World) : Op → Except Err Db
  | .tick _ => .ok w.db
  | .saveSettings cached settings => .ok (Auth.saveSettings w.db cached settings w.clock)
  | .createAccount u => insertUser w.db { u with id := w.next }
  | .login userId secret stored prepared => do
    require (cfg.verifyAuthSecret secret stored = true) .sessionInvalid
    mintPasswordSession w.db w.next userId stored prepared
  | .ssoLogin userId i prepared => mintSSOSession w.db w.next userId i prepared w.clock
  | .extendSession id seen => .ok (Auth.extendSession w.db id seen)
  | .stepUp s secret stored => Auth.stepUp cfg w.db s secret stored w.clock
  | .revokeSession id => .ok (Auth.revokeSession w.db id w.clock)
  | .logoutAll userId => .ok (Auth.logoutAll w.db userId w.clock)
  | .collectSessions => .ok (Auth.collectSessions w.db w.clock)
  | .ssoLogout c clientId => applySSOLogout w.db c clientId w.clock
  | .requireSSOStepUp s action scope allow => Auth.requireSSOStepUp w.db s action scope allow w.next w.clock
  | .beginSSOStepUp s id seen => Auth.beginSSOStepUp w.db s id seen
  | .cancelSSOStepUp s id => .ok (Auth.cancelSSOStepUp w.db s id)
  | .completeSSOStepUp s id i authTime => Auth.completeSSOStepUp w.db s id i authTime w.clock
  | .consumeSSOStepUp s id action scope => Auth.consumeSSOStepUp w.db s id action scope w.clock
  | .deliver settings e hash salt =>
    (directoryRequest cfg w.db settings e ⟨w.next, hash, salt⟩ w.clock).map Prod.fst
  | .patchUser s id role status quotaBytes => Auth.patchUser w.db s id role status quotaBytes w.clock
  | .grantAdmin userId issuer subject => Auth.grantAdmin w.db userId issuer subject w.clock
  | .mintPairing s nonce seen => (mintSessionPairingToken s nonce seen).map fun _ => w.db
  | .register c g seen => do
    require (c ∈ w.issued) .invalidToken
    registerDevice cfg w.db c g w.next seen w.clock
  | .revokeDevice s id => Auth.revokeDevice w.db s id w.clock
  | .putIdentity s p unusable => Auth.putIdentity cfg w.db s p w.next w.next unusable w.clock
  | .putRecovery s p => Auth.putRecovery w.db s p w.next w.clock
  | .changePassword s p stored confirmed salt => Auth.changePassword cfg w.db s p stored confirmed salt w.clock
  | .upgradeLogin s p stored salt => Auth.upgradeLogin cfg w.db s p stored salt w.clock
  | .recoverAccount userId p stored nextHash salt =>
    Auth.recoverAccount cfg w.db userId p stored nextHash salt w.clock
  | .resetPassword userId secret loginSalt iterations salt =>
    Auth.resetPassword cfg w.db userId secret loginSalt iterations salt w.clock

/-- The time that an operation lets pass. -/
def Op.ticks : Op → Time
  | .tick d => d
  | _ => 0

/-- The token that an operation signs. -/
def Op.signs : Op → List PairingClaims
  | .mintPairing s nonce seen => (mintSessionPairingToken s nonce seen).toOption.toList
  | _ => []

/-- A transaction commits or leaves the database as it was. -/
def step (w : World) (op : Op) : World :=
  { db := match tx cfg w op with
      | .ok db => db
      | .error _ => w.db
    clock := w.clock + op.ticks
    next := w.next + 1
    issued := w.issued ++ op.signs }

/-- The world after the operations. -/
def reach (w : World) (ops : List Op) : World := run (step cfg) w ops

/-! ## Commits -/

/-- A transaction that has committed, with the clock and the identifier that it took. -/
structure Entry where
  clock : Time
  id : Nat
  op : Op
deriving DecidableEq

/-- What an operation adds to the history. -/
def commits (w : World) (op : Op) : List Entry :=
  match tx cfg w op with
  | .ok _ => [⟨w.clock, w.next, op⟩]
  | .error _ => []

/-- The world and the transactions committed on the way to it. -/
def recorded (w : World) (ops : List Op) : World × List Entry := run (logged (step cfg) (commits cfg)) (w, []) ops

/-- The transactions that the run has committed. -/
def history (w : World) (ops : List Op) : List Entry := (recorded cfg w ops).2

variable {cfg}

theorem recorded_fst (w : World) (ops : List Op) : (recorded cfg w ops).1 = reach cfg w ops := run_logged _ _ ops

theorem step_ok {w : World} {op : Op} {db : Db} (h : tx cfg w op = .ok db) : (step cfg w op).db = db := by
  simp only [step, h]

theorem step_error {w : World} {op : Op} {e : Err} (h : tx cfg w op = .error e) : (step cfg w op).db = w.db := by
  simp only [step, h]

/-- What every commit keeps holds after the step. -/
theorem step_keeps {P : Db → Prop} {w : World} {op : Op} (h : ∀ db, tx cfg w op = .ok db → P w.db → P db)
    (hw : P w.db) : P (step cfg w op).db := by
  cases hx : tx cfg w op with
  | ok db => rw [step_ok hx]; exact h db hx hw
  | error e => rw [step_error hx]; exact hw

theorem commits_ok {w : World} {op : Op} {db : Db} (h : tx cfg w op = .ok db) :
    commits cfg w op = [⟨w.clock, w.next, op⟩] := by
  simp only [commits, h]

theorem commits_error {w : World} {op : Op} {e : Err} (h : tx cfg w op = .error e) : commits cfg w op = [] := by
  simp only [commits, h]

theorem tx_of_commits {w : World} {op : Op} (h : (commits cfg w op).length = 1) :
    tx cfg w op = .ok (step cfg w op).db := by
  cases hx : tx cfg w op with
  | ok db => rw [step_ok hx]
  | error e =>
    rw [commits_error hx] at h
    cases h

/-! ## A small installation -/

/-- Hashes that keep what they were computed from. -/
def plainConfig : Config where
  sha256 := id
  hashAuthSecret secret _ := secret
  verifyAuthSecret secret hash := secret = hash
  verifyRecoveryCode code hash := code = hash
  toLower := id
  printable _ := true

/-- An active local account. -/
def localAccount (id : UserId) (name secret : String) (role : UserRole) (kind : AccountKind) : User :=
  { id := id, username := name, authSecretHash := secret, loginSalt := "salt", loginIterations := 100000,
    recoveryHash := "", role := role, accountKind := kind, status := .active, quotaBytes := 0, ssoSubject := "",
    ssoIssuer := "", passwordAdminKnown := false }

/-- What the middleware reads of a session of the account. -/
def sessionOf (id : SessionId) (u : User) : Session :=
  { id := id, userId := u.id, ssoIssuer := "", ssoClientId := "", ssoSubject := "", createdAt := 0, stepUpRaw := none,
    passwordHash := u.authSecretHash, accountKind := u.accountKind, passwordChangeRequired := false }

/-- The settings of an installation with single sign-on. -/
def ssoSettings : Settings := ⟨true, "https://idp", "kynotes", "directory secret"⟩

/-- The identity that the provider vouches for when Eve signs in at `now`. -/
def eveIdentity (now : Time) : SSOIdentity :=
  { issuer := "https://idp", clientId := "kynotes", subject := "s", sessionId := "sid", issuedAt := format now,
    loginExpires := now + ssoLoginLifetime, appAdmin := false }

/-- Single sign-on is configured and Eve has an account that is linked to it. -/
def ssoOps : List Op :=
  [.saveSettings Db.init.settings ssoSettings,
    .createAccount { localAccount 0 "eve" "e" .user .user with ssoIssuer := "https://idp", ssoSubject := "s" }]

end KyNotes.Auth
