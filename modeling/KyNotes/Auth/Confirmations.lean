import KyNotes.Auth.Sessions

/-!
# KySignOn confirmations (`auth/sso_stepup.go`)

An SSO session confirms one exact request with the identity provider: the refused request stores a challenge
(`requireSSOStepUp`), the browser opens it (`beginSSOStepUp`), the callback verifies it (`completeSSOStepUp`), the
repeated request spends it (`consumeSSOStepUp`); another tab may cancel it (`cancelSSOStepUp`). `action` is the digest
of the request, `stepUpAction`.
-/

namespace KyNotes.Auth

open Relational Check

/-- The confirmation of the session that the user has opened and that has not expired. -/
def pendingChallenge (db : Db) (id : SessionId) (now : Time) : Option Challenge :=
  db.challenges.rows.find? fun c => c.sessionId = id ∧ c.started = true ∧ format now < c.expiresAt

/-- `requireSSOStepUp` without a grant. `allow` is the verdict of the rate limiter. -/
def requireSSOStepUp (db : Db) (s : Session) (action : Digest) (scope : Scope) (allow : Bool) (id : ChallengeId)
    (now : Time) : Except Err Db :=
  match pendingChallenge db s.id now with
  | some c => .error (.stepUpPending c.id)
  | none => do
    require (allow = true) .rateLimited
    let kept := db.challenges.delete fun c => c.sessionId = s.id ∨ c.expiresAt ≤ format now
    require (∃ r ∈ db.sessions, r.id = s.id) .constraint
    let t ← fetch (kept.insert
      { id := id, sessionId := s.id, action := action, scope := scope, createdAt := format now,
        expiresAt := format (now + ssoLoginLifetime), started := false, verified := false, authTime := 0,
        proofSid := "", proofIat := 0 }) .constraint
    pure { db with challenges := t }

/-- `BeginSSOStepUp`: one statement, with a clock that was read before it ran. -/
def beginSSOStepUp (db : Db) (s : Session) (id : ChallengeId) (seen : Time) : Except Err Db := do
  let c ← fetch (db.challenges.get id) .noRows
  require (c.sessionId = s.id ∧ c.started = false ∧ format seen < c.expiresAt) .noRows
  pure { db with challenges := db.challenges.update (fun c => c.id = id) fun c => { c with started := true } }

/-- `CancelSSOStepUp`. -/
def cancelSSOStepUp (db : Db) (s : Session) (id : ChallengeId) : Db :=
  { db with challenges := db.challenges.delete fun c => c.id = id ∧ c.sessionId = s.id }

/-- The session and account that `liveStepUpSession` asks for. -/
def liveStepUp (db : Db) (s : Session) (now : Time) (scope : Scope) : Prop :=
  ∃ r ∈ db.sessions, r.id = s.id ∧ r.userId = s.userId ∧ r.revokedAt = none ∧ format now < r.expiresAt ∧
    format now < r.hardExpiresAt ∧ r.ssoIssuer = s.ssoIssuer ∧ r.ssoClientId = s.ssoClientId ∧
    r.ssoSubject = s.ssoSubject ∧
    ∃ u ∈ db.users, u.id = r.userId ∧ u.status = .active ∧
      (scope ≠ .admin ∨ (r.ssoAppAdmin = true ∧ u.role = .admin))

instance (db : Db) (s : Session) (now : Time) (scope : Scope) : Decidable (liveStepUp db s now scope) :=
  inferInstanceAs (Decidable (∃ r ∈ db.sessions, _ ∧ _ ∧ _ ∧ _ ∧ _ ∧ _ ∧ _ ∧ _ ∧ ∃ u ∈ db.users, _))

/-- `liveStepUpSession`. -/
def liveStepUpSession (db : Db) (s : Session) (now : Time) (scope : Scope) : Except Err Unit :=
  require (liveStepUp db s now scope) .ssoLoginRejected

/-- `CompleteSSOStepUp`. `authTime` is the identity provider's. -/
def completeSSOStepUp (db : Db) (s : Session) (id : ChallengeId) (i : SSOIdentity) (authTime : Stamp) (now : Time) :
    Except Err Db := do
  require (i.issuer = s.ssoIssuer ∧ i.clientId = s.ssoClientId ∧ i.subject = s.ssoSubject ∧ now < i.loginExpires)
    .ssoLoginRejected
  let c ← fetch (db.challenges.get id) .ssoLoginRejected
  require (c.sessionId = s.id) .ssoLoginRejected
  require (¬(c.scope = .admin ∧ i.appAdmin = false)) .ssoLoginRejected
  liveStepUpSession db s now c.scope
  checkSSOIdentityTx db s.userId i now
  require (c.started = true ∧ c.verified = false ∧ format now < c.expiresAt ∧ c.createdAt ≤ authTime) .ssoLoginRejected
  pure { db with
    challenges := db.challenges.update (fun c => c.id = id) fun c =>
      { c with
        verified := true, authTime := authTime, proofSid := i.sessionId, proofIat := i.issuedAt
        expiresAt := min c.expiresAt (format (now + 60 * second)) } }

/-- `consumeSSOStepUp`: the challenge goes with the commit that admits the request. -/
def consumeSSOStepUp (db : Db) (s : Session) (id : ChallengeId) (action : Digest) (scope : Scope) (now : Time) :
    Except Err Db := do
  let c ← fetch (db.challenges.get id) .noRows
  require (c.sessionId = s.id ∧ c.action = action ∧ c.scope = scope ∧ c.verified = true ∧ format now < c.expiresAt)
    .noRows
  let db := { db with challenges := db.challenges.delete fun c => c.id = id }
  liveStepUpSession db s now scope
  checkSSOIdentityTx db s.userId
    { issuer := s.ssoIssuer, clientId := s.ssoClientId, subject := s.ssoSubject, sessionId := c.proofSid,
      issuedAt := c.proofIat, loginExpires := 0, appAdmin := false } now
  pure db

end KyNotes.Auth
