import KyNotes.Auth.System

/-!
# What a transaction writes

* One inversion lemma for each transaction (`liveSessionTx_ok`, `mintSSOSession_ok`, `registerDevice_ok`, ...): what it
  has checked and what it commits.
* `Op.touches`: the tables that an operation may write, and `tx_frame`: it writes no other.
-/

namespace KyNotes.Auth

open Relational Check Transition

variable {cfg : Config} {db db' : Db} {s : Session} {now : Time}

/-! ## Sessions -/

/-- The session is live and belongs to an active account. -/
structure LiveSession (db : Db) (s : Session) (now : Time) (r : SessionRow) (u : User) : Prop where
  row : db.sessions.get s.id = some r
  owner : db.users.get r.userId = some u
  user : r.userId = s.userId
  unrevoked : r.revokedAt = none
  active : u.status = .active
  expires : now ≤ parseTime r.expiresAt
  hardExpires : now ≤ parseTime r.hardExpiresAt

theorem liveSessionTx_ok {x : Option Stamp × String} (h : liveSessionTx db s now = .ok x) :
    ∃ r u, LiveSession db s now r u ∧ x = (r.stepupAt, u.authSecretHash) := by
  simp only [liveSessionTx, bind_ok, fetch_ok, require_ok, pure_ok] at h
  obtain ⟨r, hr, u, hu, -, ⟨h₁, h₂, h₃⟩, -, ⟨h₄, h₅⟩, rfl⟩ := h
  exact ⟨r, u, ⟨hr, hu, h₁, h₂, h₃, h₄, h₅⟩, rfl⟩

theorem map_ok {α β ε : Type} {x : Except ε α} {f : α → β} {b : β} : x.map f = .ok b ↔ ∃ a, x = .ok a ∧ f a = b := by
  cases x <;> simp [Except.map]

theorem recheckSessionTx_ok {hash : String} (h : recheckSessionTx db s now = .ok hash) :
    ∃ r u, LiveSession db s now r u ∧ hash = u.authSecretHash := by
  obtain ⟨x, hx, rfl⟩ := map_ok.mp h
  obtain ⟨r, u, hl, rfl⟩ := liveSessionTx_ok hx
  exact ⟨r, u, hl, rfl⟩

/-- A fresh step-up of a live session, on a password that nobody else knows. -/
theorem recheckUserStepUpTx_ok {x : Unit} (h : recheckUserStepUpTx db s now = .ok x) :
    ∃ r u, LiveSession db s now r u ∧ u.authSecretHash = s.passwordHash ∧ r.stepupAt = s.stepUpRaw ∧
      s.stepUpRaw ≠ none ∧ u.passwordAdminKnown = false := by
  simp only [recheckUserStepUpTx, bind_ok, fetch_ok, require_ok] at h
  obtain ⟨⟨stepUp, hash⟩, h₀, -, ⟨-, hh, hs⟩, t, ht, -, -, u', hu', hk⟩ := h
  obtain ⟨r, u, hl, hx⟩ := liveSessionTx_ok h₀
  obtain ⟨rfl, rfl⟩ := Prod.mk.inj hx
  have hu : u' = u := by
    have := hl.owner
    rw [hl.user, hu'] at this
    exact Option.some.inj this
  subst hu
  exact ⟨r, u', hl, hh, hs, by rw [ht]; simp, hk⟩

theorem recheckUserActionTx_ok {x : Unit} (h : recheckUserActionTx db s now = .ok x) :
    (s.ssoIssuer = "" ∧ recheckUserStepUpTx db s now = .ok ()) ∨
      (s.ssoIssuer ≠ "" ∧ ∃ r u, LiveSession db s now r u) := by
  unfold recheckUserActionTx at h
  split at h
  · exact Or.inl ⟨‹_›, h⟩
  · obtain ⟨y, hy, -⟩ := map_ok.mp h
    obtain ⟨r, u, hl, -⟩ := liveSessionTx_ok hy
    exact Or.inr ⟨‹_›, r, u, hl⟩

theorem sessionRole_ok {role : UserRole} (h : sessionRole db s = .ok role) :
    ∃ r u, db.sessions.get s.id = some r ∧ db.users.get s.userId = some u ∧ r.userId = u.id ∧ r.revokedAt = none ∧
      u.status = .active ∧
      role = if u.role = .admin ∧ u.accountKind = .admin ∧ (r.ssoIssuer = "" ∨ r.ssoAppAdmin = true) then .admin
        else .user := by
  simp only [sessionRole, bind_ok, fetch_ok, require_ok, pure_ok] at h
  obtain ⟨r, hr, u, hu, -, ⟨h₁, h₂, h₃⟩, rfl⟩ := h
  exact ⟨r, u, hr, hu, h₁, h₂, h₃, rfl⟩

theorem mintPasswordSession_ok {id : SessionId} {userId : UserId} {hash : String} {prepared : Time}
    (h : mintPasswordSession db id userId hash prepared = .ok db') :
    (∃ u ∈ db.users, u.id = userId ∧ u.status = .active ∧ u.authSecretHash = hash) ∧
      ∃ t, db.sessions.insert (prepareSession id userId prepared) = some t ∧ db' = { db with sessions := t } := by
  simp only [mintPasswordSession, bind_ok, fetch_ok, require_ok, pure_ok] at h
  obtain ⟨-, hu, t, ht, rfl⟩ := h
  exact ⟨hu, t, ht, rfl⟩

theorem mintSSOSession_ok {id : SessionId} {userId : UserId} {i : SSOIdentity} {prepared : Time} :
    mintSSOSession db id userId i prepared now = .ok db' ↔
      (i.issuer ≠ "" ∧ i.clientId ≠ "" ∧ i.subject ≠ "" ∧ now < i.loginExpires) ∧
      checkSSOIdentityTx db userId i now = .ok () ∧
      ∃ t, db.sessions.insert (ssoSession id userId i prepared) = some t ∧ { db with sessions := t } = db' := by
  simp only [mintSSOSession, bind_ok, fetch_ok, require_ok, pure_ok]
  constructor
  · rintro ⟨-, h₁, ⟨⟩, h₂, t, ht, rfl⟩
    exact ⟨h₁, h₂, t, ht, rfl⟩
  · rintro ⟨h₁, h₂, t, ht, rfl⟩
    exact ⟨(), h₁, (), h₂, t, ht, rfl⟩

theorem checkSSOIdentityTx_ok {userId : UserId} {i : SSOIdentity} {x : Unit}
    (h : checkSSOIdentityTx db userId i now = .ok x) :
    (∃ u ∈ db.users, u.id = userId ∧ u.status = .active ∧ u.ssoIssuer = i.issuer ∧ u.ssoSubject = i.subject) ∧
      ¬fenced db i now := by
  simp only [checkSSOIdentityTx, require_ok] at h
  exact ⟨h.1, h.2.2.2.2.2.2⟩

theorem stepUp_ok {secret stored : String} (h : stepUp cfg db s secret stored now = .ok db') :
    cfg.verifyAuthSecret secret stored = true ∧ (∃ r u, LiveSession db s now r u ∧ u.authSecretHash = stored) ∧
      db' = { db with
        sessions := db.sessions.update (fun r => r.id = s.id) fun r => { r with stepupAt := some (format now) } } := by
  simp only [stepUp, bind_ok, require_ok, pure_ok] at h
  obtain ⟨-, hv, hash, hh, -, hs, rfl⟩ := h
  obtain ⟨r, u, hl, rfl⟩ := recheckSessionTx_ok hh
  exact ⟨hv, ⟨r, u, hl, hs⟩, rfl⟩

theorem applySSOLogout_ok {c : LogoutClaims} {clientId : String} :
    applySSOLogout db c clientId now = .ok db' ↔
      now < c.replayUntil ∧ (db.settings.ssoIssuerUrl = c.issuer ∧ db.settings.ssoClientId = clientId) ∧
      ∃ t, (db.logoutEvents.delete fun e => e.retainUntil < format now).insert (c.event clientId now) = some t ∧
        revokeDevices
          (revokeSessions { db with logoutEvents := t } (fun r => r.revokedAt = none ∧ c.covers clientId r) now)
          (c.pairedFrom clientId
            (revokeSessions { db with logoutEvents := t } (fun r => r.revokedAt = none ∧ c.covers clientId r) now))
          now = db' := by
  simp only [applySSOLogout, bind_ok, fetch_ok, require_ok, pure_ok]
  constructor
  · rintro ⟨-, h₁, -, h₂, t, ht, h⟩
    exact ⟨h₁, h₂, t, ht, h⟩
  · rintro ⟨h₁, h₂, t, ht, h⟩
    exact ⟨(), h₁, (), h₂, t, ht, h⟩

/-! ## Confirmations -/

theorem pendingChallenge_eq_none {id : SessionId} :
    pendingChallenge db id now = none ↔
      ∀ c ∈ db.challenges, c.sessionId = id → c.started = true → c.expiresAt ≤ format now := by
  unfold pendingChallenge
  rw [List.find?_eq_none]
  constructor
  · intro h c hc h₁ h₂
    have := h c hc
    simp only [h₁, h₂, true_and, decide_eq_true_eq, Nat.not_lt] at this
    exact this
  · intro h c hc hp
    simp only [decide_eq_true_eq] at hp
    exact absurd hp.2.2 (Nat.not_lt.mpr (h c hc hp.1 hp.2.1))

/-- The row that a refused request stores. -/
def newChallenge (s : Session) (action : Digest) (scope : Scope) (id : ChallengeId) (now : Time) : Challenge :=
  { id := id, sessionId := s.id, action := action, scope := scope, createdAt := format now,
    expiresAt := format (now + ssoLoginLifetime), started := false, verified := false, authTime := 0, proofSid := "",
    proofIat := 0 }

theorem requireSSOStepUp_ok {action : Digest} {scope : Scope} {allow : Bool} {id : ChallengeId}
    (h : requireSSOStepUp db s action scope allow id now = .ok db') :
    pendingChallenge db s.id now = none ∧
      ∃ t, (db.challenges.delete fun c => c.sessionId = s.id ∨ c.expiresAt ≤ format now).insert
          (newChallenge s action scope id now) = some t ∧ db' = { db with challenges := t } := by
  unfold requireSSOStepUp at h
  split at h
  · cases h
  · rename_i hp
    simp only [bind_ok, fetch_ok, require_ok, pure_ok] at h
    obtain ⟨-, -, -, -, t, ht, rfl⟩ := h
    exact ⟨hp, t, ht, rfl⟩

theorem beginSSOStepUp_ok {id : ChallengeId} {seen : Time} (h : beginSSOStepUp db s id seen = .ok db') :
    ∃ c, db.challenges.get id = some c ∧ (c.sessionId = s.id ∧ c.started = false ∧ format seen < c.expiresAt) ∧
      db' = { db with
        challenges := db.challenges.update (fun c => c.id = id) fun c => { c with started := true } } := by
  simp only [beginSSOStepUp, bind_ok, fetch_ok, require_ok, pure_ok] at h
  obtain ⟨c, hc, -, hp, rfl⟩ := h
  exact ⟨c, hc, hp, rfl⟩

theorem completeSSOStepUp_ok {id : ChallengeId} {i : SSOIdentity} {authTime : Stamp}
    (h : completeSSOStepUp db s id i authTime now = .ok db') :
    ∃ c, db.challenges.get id = some c ∧ c.sessionId = s.id ∧ liveStepUp db s now c.scope ∧
      (c.started = true ∧ c.verified = false ∧ format now < c.expiresAt ∧ c.createdAt ≤ authTime) ∧
      db' = { db with
        challenges := db.challenges.update (fun c => c.id = id) fun c =>
          { c with
            verified := true, authTime := authTime, proofSid := i.sessionId, proofIat := i.issuedAt
            expiresAt := min c.expiresAt (format (now + 60 * second)) } } := by
  simp only [completeSSOStepUp, liveStepUpSession, bind_ok, fetch_ok, require_ok, pure_ok] at h
  obtain ⟨-, -, c, hc, -, hs, -, -, -, hl, -, -, -, hp, rfl⟩ := h
  exact ⟨c, hc, hs, hl, hp, rfl⟩

theorem consumeSSOStepUp_ok {id : ChallengeId} {action : Digest} {scope : Scope}
    (h : consumeSSOStepUp db s id action scope now = .ok db') :
    ∃ c, db.challenges.get id = some c ∧
      (c.sessionId = s.id ∧ c.action = action ∧ c.scope = scope ∧ c.verified = true ∧ format now < c.expiresAt) ∧
      liveStepUp db s now scope ∧
      db' = { db with challenges := db.challenges.delete fun c => c.id = id } := by
  simp only [consumeSSOStepUp, liveStepUpSession, bind_ok, fetch_ok, require_ok, pure_ok] at h
  obtain ⟨c, hc, -, hp, -, hl, -, -, rfl⟩ := h
  exact ⟨c, hc, hp, hl, rfl⟩

/-! ## Accounts -/

theorem insertUser_ok {u : User} (h : insertUser db u = .ok db') :
    userAllowed db u ∧ ∃ t, db.users.insert u = some t ∧ db' = { db with users := t } := by
  simp only [insertUser, bind_ok, fetch_ok, require_ok, pure_ok] at h
  obtain ⟨-, ha, t, ht, rfl⟩ := h
  exact ⟨ha, t, ht, rfl⟩

theorem updateUser_ok {id : UserId} {f : User → User} {u : User} (hu : db.users.get id = some u)
    (h : updateUser db id f = .ok db') :
    userAllowed db (f u) ∧ db' = { db with users := db.users.update (fun x => x.id = id) f } := by
  unfold updateUser at h
  rw [hu] at h
  simp only [bind_ok, require_ok, pure_ok] at h
  obtain ⟨-, ha, rfl⟩ := h
  exact ⟨ha, rfl⟩

/-- The account that a delivery changes is the one of the identity, or an unlinked everyday account of its name. -/
theorem findAccount_some {issuer : String} {u : DirectoryUser} {x : User} (h : findAccount cfg db issuer u = some x) :
    db.users.get x.id = some x := by
  unfold findAccount at h
  split at h
  · rename_i y hy
    cases h
    exact Table.get_of_mem (List.mem_of_find?_eq_some hy)
  · split at h
    · cases h
    · exact Table.get_of_mem (List.mem_of_find?_eq_some h)

theorem findAccount_none {issuer : String} {u : DirectoryUser} (h : findAccount cfg db issuer u = none) :
    ∀ x ∈ db.users, ¬(x.ssoSubject = u.id ∧ x.ssoIssuer = issuer) := by
  unfold findAccount at h
  split at h
  · cases h
  · rename_i hn
    intro x hx hp
    have := List.find?_eq_none.mp hn x hx
    simp [hp.1, hp.2] at this

/-- The account row that an active delivery creates. -/
def directoryAccount (cfg : Config) (u : DirectoryUser) (issuer : String) (new : Fresh) : User :=
  { id := new.id, username := if u.userName = "" then u.id else cfg.toLower u.userName,
    authSecretHash := new.authSecretHash, loginSalt := new.loginSalt, loginIterations := 600000, recoveryHash := "",
    role := u.localRole, accountKind := (match u.localRole with | .admin => .admin | .user => .user),
    status := .active, quotaBytes := 0, ssoSubject := u.id, ssoIssuer := issuer, passwordAdminKnown := false }

/-- What a delivery writes to the account that it matches. -/
def directoryWrite (cfg : Config) (db : Db) (u : DirectoryUser) (issuer : String) (active : Bool) (x y : User) : User :=
  { y with
    username := if u.userName = "" then x.username else cfg.toLower u.userName, role := storedRole db x u active
    status := if active then .active else .disabled, ssoSubject := u.id, ssoIssuer := issuer }

/-- The database after the role change of a matched account has ended its credentials. -/
def afterRoleChange (db : Db) (u : DirectoryUser) (issuer : String) (x : User) (now : Time) : Db :=
  if x.accountKind = .admin ∧ u.localRole ≠ x.role then revokeForRoleChange db issuer u.id x.id now else db

@[simp] theorem afterRoleChange_users (u : DirectoryUser) (issuer : String) (x : User) :
    (afterRoleChange db u issuer x now).users = db.users := by
  unfold afterRoleChange
  split <;> rfl

/-- The three things that a delivery does to accounts. -/
theorem syncSingleUser_ok {issuer : String} {u : DirectoryUser} {active : Bool} {new : Fresh}
    (h : syncSingleUser cfg db issuer u active new now = .ok db') :
    (findAccount cfg db issuer u = none ∧ active = false ∧ db' = db) ∨
    (findAccount cfg db issuer u = none ∧ active = true ∧ insertUser db (directoryAccount cfg u issuer new) = .ok db') ∨
    (∃ x, findAccount cfg db issuer u = some x ∧
      (x.ssoSubject = "" ∨ (x.ssoSubject = u.id ∧ x.ssoIssuer = issuer)) ∧ ¬(x.ssoSubject = "" ∧ x.accountKind = .admin) ∧
      userAllowed (afterRoleChange db u issuer x now) (directoryWrite cfg db u issuer active x x) ∧
      db' = { afterRoleChange db u issuer x now with
        users := db.users.update (fun y => y.id = x.id) (directoryWrite cfg db u issuer active x) }) := by
  unfold syncSingleUser at h
  split at h
  · rename_i hf
    split at h
    · rename_i ha
      cases h
      exact Or.inl ⟨hf, ha, rfl⟩
    · rename_i ha
      exact Or.inr (Or.inl ⟨hf, by simpa using ha, h⟩)
  · rename_i x hf
    simp only [bind_ok, require_ok] at h
    obtain ⟨-, h₁, -, h₂, h⟩ := h
    have hx : (afterRoleChange db u issuer x now).users.get x.id = some x := by
      rw [afterRoleChange_users]
      exact findAccount_some hf
    obtain ⟨ha, hd⟩ := updateUser_ok hx h
    refine Or.inr (Or.inr ⟨x, hf, h₁, h₂, ha, ?_⟩)
    rw [hd, afterRoleChange_users]
    rfl

/-- The database with the state row of an applied delivery. -/
def withState (cfg : Config) (db : Db) (e : Delivery) (issuer : String) (revision : Nat) (active : Bool) (now : Time) :
    Db :=
  { db with
    directory := db.directory.upsert (e.state cfg issuer revision active now) fun d =>
      { d with
        revision := revision, digest := e.digest cfg, active := active, eventId := e.eventId
        revokedBefore := max d.revokedBefore (if active then 0 else format now) } }

theorem applyDelivery_ok {e : Delivery} {issuer : String} {revision : Nat} {active : Bool} {new : Fresh}
    (h : applyDelivery cfg db e issuer revision active new now = .ok db') :
    ∃ db₁, syncSingleUser cfg (withState cfg db e issuer revision active now) issuer e.resource active new now =
        .ok db₁ ∧
      db' = if active then db₁ else endIdentity db₁ issuer e.resource.id now := by
  simp only [applyDelivery, bind_ok, pure_ok] at h
  obtain ⟨db₁, h₁, rfl⟩ := h
  exact ⟨db₁, h₁, rfl⟩

/-- The replay row of a delivery, beside those that have not expired. -/
def withSyncEvent (cfg : Config) (db : Db) (e : Delivery) (issuer : String) (now : Time) : Db :=
  { db with
    syncEvents := (db.syncEvents.delete fun s => s.expiresAt < format now).insertOrIgnore
      ⟨e.eventId, format (e.at' + defaultWindow), issuer, e.digest cfg⟩ }

/-- The revision that is stored for a subject, 0 for none. -/
def storedRevision (db : Db) (issuer subject : String) : Nat :=
  ((db.directory.get (issuer, subject)).map DirectoryState.revision).getD 0

/-- An accepted delivery: a new revision is applied, the stored one is a replay. -/
structure Accepted (cfg : Config) (db : Db) (settings : Settings) (e : Delivery) (revision : Nat) (active : Bool) :
    Prop where
  check : e.resource.check cfg e.kind = some (revision, active)
  issuer : settings.ssoIssuerUrl ≠ ""
  notStale : storedRevision db settings.ssoIssuerUrl e.resource.id ≤ revision
  notForked : revision = storedRevision db settings.ssoIssuerUrl e.resource.id →
    (db.directory.get (settings.ssoIssuerUrl, e.resource.id)).map DirectoryState.digest = some (e.digest cfg)

theorem directoryRequest_ok {settings : Settings} {e : Delivery} {new : Fresh} {a : Applied}
    (h : directoryRequest cfg db settings e new now = .ok (db', a)) :
    ∃ revision active, Accepted cfg db settings e revision active ∧
      ((storedRevision db settings.ssoIssuerUrl e.resource.id < revision ∧ a = .applied ∧
          applyDelivery cfg (withSyncEvent cfg db e settings.ssoIssuerUrl now) e settings.ssoIssuerUrl revision active
            new now = .ok db') ∨
        (storedRevision db settings.ssoIssuerUrl e.resource.id = revision ∧ a = .alreadyApplied ∧
          db' = withSyncEvent cfg db e settings.ssoIssuerUrl now)) := by
  simp only [directoryRequest, bind_ok, fetch_ok, require_ok] at h
  obtain ⟨⟨revision, active⟩, hc, -, ⟨hi, -⟩, -, -, -, hp, -, -, h⟩ := h
  have hp' : ¬(revision < storedRevision db settings.ssoIssuerUrl e.resource.id ∨
      (revision = storedRevision db settings.ssoIssuerUrl e.resource.id ∧
        (db.directory.get (settings.ssoIssuerUrl, e.resource.id)).map DirectoryState.digest ≠ some (e.digest cfg))) :=
    hp
  rw [not_or, Nat.not_lt] at hp'
  have hacc : Accepted cfg db settings e revision active :=
    ⟨hc, hi, hp'.1, fun heq => by by_contra hne; exact hp'.2 ⟨heq, hne⟩⟩
  refine ⟨revision, active, hacc, ?_⟩
  split at h
  · rename_i hlt
    simp only [bind_ok, pure_ok, Prod.mk.injEq] at h
    obtain ⟨db₁, h₁, rfl, rfl⟩ := h
    exact Or.inl ⟨hlt, rfl, h₁⟩
  · rename_i hlt
    simp only [pure_ok, Prod.mk.injEq] at h
    obtain ⟨rfl, rfl⟩ := h
    exact Or.inr ⟨Nat.le_antisymm hacc.notStale (Nat.not_lt.mp hlt), rfl, rfl⟩

theorem grantAdmin_ok {userId : UserId} {issuer subject : String}
    (h : grantAdmin db userId issuer subject now = .ok db') :
    db' = { revokeForRoleChange db issuer subject userId now with
      users := db.users.update (fun x => x.id = userId) fun x => { x with role := .admin } } := by
  simp only [grantAdmin, bind_ok, fetch_ok, require_ok, pure_ok] at h
  obtain ⟨u, -, -, -, rfl⟩ := h
  rfl

theorem patchUser_ok {id : UserId} {role : UserRole} {status : Status} {quotaBytes : Nat}
    (h : patchUser db s id role status quotaBytes now = .ok db') :
    (∃ u, db.users.get s.userId = some u ∧ u.status = .active ∧ u.role = .admin) ∧
    (id = s.userId → role = .admin ∧ status = .active) ∧
    ∃ u, db.users.get id = some u ∧
      userAllowed db { u with role := role, status := status, quotaBytes := quotaBytes } ∧
      db' =
        (let db₁ := { db with
            users := db.users.update (fun x => x.id = id) fun x =>
              { x with role := role, status := status, quotaBytes := quotaBytes } }
         if status = .disabled then endCredentials db₁ id now else db₁) := by
  simp only [patchUser, bind_ok, fetch_ok, require_ok, pure_ok, mapError_ok] at h
  obtain ⟨u, hu, -, -, -, hself, caller, hc, -, hadmin, db₁, h₁, rfl⟩ := h
  obtain ⟨r, x, -, hx, -, -, hact, hrole⟩ := sessionRole_ok hc
  refine ⟨⟨x, hx, hact, ?_⟩, ?_, u, hu, ?_⟩
  · rw [hadmin] at hrole
    split at hrole
    · rename_i hp; exact hp.1
    · cases hrole
  · intro hid
    by_contra hne
    exact hself ⟨hid, by by_contra hor; rw [not_or, not_not, not_not] at hor; exact hne hor⟩
  · obtain ⟨ha, rfl⟩ := updateUser_ok hu h₁
    exact ⟨ha, rfl⟩

/-! ## Devices -/

theorem registerDevice_ok {c : PairingClaims} {g : Registration} {id : DeviceId} {seen : Time}
    (h : registerDevice cfg db c g id seen now = .ok db') :
    g.platform ≠ identityPlatform ∧ now < parseTime c.exp ∧
    (∃ u, db.users.get c.sub = some u ∧ u.accountKind = .user ∧ u.status = .active) ∧
    (∃ subject origin, originSession db c subject now = .ok origin ∧
      ∃ nonces devices, db.nonces.insert ⟨cfg.sha256 c.nonce, c.purpose, c.sub, format now, c.exp⟩ = some nonces ∧
        storeDevice cfg db c g origin id = .ok devices ∧ db' = { db with nonces := nonces, devices := devices }) := by
  simp only [registerDevice, bind_ok, fetch_ok, require_ok, pure_ok] at h
  obtain ⟨-, ⟨hp, -, -⟩, -, -, -, hexp, u, hu, -, hk, origin, ho, nonces, hn, devices, hd, rfl⟩ := h
  exact ⟨hp, hexp, ⟨u, hu, hk⟩, u.ssoSubject, origin, ho, nonces, devices, hn, hd, rfl⟩

theorem originSession_ok {c : PairingClaims} {subject : String} {origin : Option SessionId}
    (h : originSession db c subject now = .ok origin) :
    (c.sessionId = none ∧ subject = "" ∧ origin = none) ∨
      ∃ r, authorised db c now r ∧ origin = if r.ssoIssuer = "" then none else some r.id := by
  unfold originSession at h
  split at h
  · rename_i hs
    simp only [bind_ok, require_ok, pure_ok] at h
    obtain ⟨-, hsub, rfl⟩ := h
    exact Or.inl ⟨hs, hsub, rfl⟩
  · rename_i sid hs
    simp only [bind_ok, fetch_ok, require_ok, pure_ok] at h
    obtain ⟨r, hr, -, hp, rfl⟩ := h
    obtain ⟨hm, rfl⟩ := Table.get_eq_some.mp hr
    exact Or.inr ⟨r, ⟨hm, hs, hp⟩, rfl⟩

theorem revokeDevice_ok {id : DeviceId} (h : revokeDevice db s id now = .ok db') :
    db' = revokeDevices db (fun d => d.id = id) now := by
  simp only [revokeDevice, bind_ok, require_ok, pure_ok] at h
  obtain ⟨-, -, rfl⟩ := h
  rfl

/-! ## Identities and passwords -/

/-- The database after a reset has ended the account's other sessions, its devices and its old identity. -/
def afterReset (db : Db) (s : Session) (now : Time) : Db :=
  { deleteIdentity
      (revokeDevices (revokeSessions db (fun r => r.userId = s.userId ∧ r.id ≠ s.id ∧ r.revokedAt = none) now)
        (fun d => d.userId = s.userId ∧ d.platform ≠ identityPlatform ∧ d.revokedAt = none) now) s.userId with
    resets := db.resets ++ [⟨s.userId, format now⟩] }

theorem resetIdentity_ok {p : IdentityPut} {fp : Digest} (h : resetIdentity db s p fp now = .ok db') :
    p.expectedDeviceId = some ((db.identities.get s.userId).map Identity.deviceId) ∧ db' = afterReset db s now := by
  simp only [resetIdentity, bind_ok, require_ok, pure_ok] at h
  obtain ⟨-, -, -, he, -, -, rfl⟩ := h
  exact ⟨he, rfl⟩

/-- The `user_identities` row of a request. -/
def newIdentity (s : Session) (p : IdentityPut) (deviceId : DeviceId) (recoveryId : RecoveryId) : Identity :=
  { userId := s.userId, deviceId := deviceId, wrappedPrivateKey := p.wrappedPrivateKey, wrapAlg := p.wrapAlg,
    recoveryId := p.recovery.map fun _ => recoveryId, recoveryAlg := (p.recovery.map RecoveryCopy.wrapAlg).getD "",
    recoveryWrappedKey := (p.recovery.map RecoveryCopy.wrappedKey).getD [] }

/-- The `devices` row of a request. -/
def newIdentityDevice (s : Session) (p : IdentityPut) (fp : Digest) (deviceId : DeviceId) (unusable : String) :
    Device :=
  { id := deviceId, userId := s.userId, publicKey := p.publicKey, fingerprint := fp, secretHash := unusable,
    labelCiphertext := [], platform := identityPlatform, revokedAt := none, ssoSessionId := none }

theorem insertIdentity_ok {p : IdentityPut} {fp : Digest} {deviceId : DeviceId} {recoveryId : RecoveryId}
    {unusable : String} (h : insertIdentity db s p fp deviceId recoveryId unusable = .ok db') :
    (∀ d ∈ db.devices, ¬(d.userId = s.userId ∧ (d.platform = identityPlatform ∨ d.fingerprint = fp))) ∧
    (∃ u ∈ db.users, u.id = s.userId ∧ u.accountKind = .user) ∧
    ∃ devices identities, db.devices.insert (newIdentityDevice s p fp deviceId unusable) = some devices ∧
      db.identities.insert (newIdentity s p deviceId recoveryId) = some identities ∧
      db' = { db with devices := devices, identities := identities } := by
  simp only [insertIdentity, bind_ok, fetch_ok, require_ok, pure_ok] at h
  obtain ⟨-, ht, -, hu, devices, hd, identities, hi, rfl⟩ := h
  exact ⟨ht, hu, devices, identities, hd, hi, rfl⟩

theorem putIdentity_ok {p : IdentityPut} {deviceId : DeviceId} {recoveryId : RecoveryId} {unusable : String}
    (h : putIdentity cfg db s p deviceId recoveryId unusable now = .ok db') :
    p.wellFormed (decide (s.ssoIssuer ≠ "")) ∧ recheckUserActionTx db s now = .ok () ∧
    ∃ db₁, ((p.replace = false ∧ db₁ = db) ∨ (p.replace = true ∧ db₁ = afterReset db s now)) ∧
      insertIdentity db₁ s p (cfg.sha256 p.publicKey) deviceId recoveryId unusable = .ok db' := by
  simp only [putIdentity, bind_ok, require_ok] at h
  obtain ⟨-, hw, ⟨⟩, hr, h⟩ := h
  refine ⟨hw, hr, ?_⟩
  split at h
  · rename_i hrep
    have hreset : ∃ db₁, resetIdentity db s p (cfg.sha256 p.publicKey) now = .ok db₁ ∧
        insertIdentity db₁ s p (cfg.sha256 p.publicKey) deviceId recoveryId unusable = .ok db' := by
      split at h
      · simp only [bind_ok] at h
        obtain ⟨-, -, -, -, db₁, h₁, h₂⟩ := h
        exact ⟨db₁, h₁, h₂⟩
      · simp only [bind_ok] at h
        exact h
    obtain ⟨db₁, h₁, h₂⟩ := hreset
    obtain ⟨-, rfl⟩ := resetIdentity_ok h₁
    exact ⟨_, Or.inr ⟨hrep, rfl⟩, h₂⟩
  · rename_i hrep
    exact ⟨db, Or.inl ⟨by simpa using hrep, rfl⟩, h⟩

theorem putRecovery_ok {p : RecoveryPut} {next : RecoveryId} (h : putRecovery db s p next now = .ok db') :
    ∃ i, db.identities.get s.userId = some i ∧ i.deviceId = p.deviceId ∧
      ((i.recoveryId ≠ none ∧ i.recoveryWrappedKey = p.copy.wrappedKey ∧ db' = db) ∨
        db' = { db with
          identities := db.identities.update (fun x => x.userId = s.userId ∧ x.recoveryId = i.recoveryId) fun x =>
            { x with recoveryId := some next, recoveryAlg := p.copy.wrapAlg, recoveryWrappedKey := p.copy.wrappedKey } }) := by
  simp only [putRecovery, bind_ok, fetch_ok, require_ok] at h
  obtain ⟨-, -, -, -, i, hi, h⟩ := h
  split at h
  · rename_i hp
    cases h
    exact ⟨i, hi, hp.1, Or.inl ⟨hp.2.1, hp.2.2, rfl⟩⟩
  · simp only [bind_ok, require_ok, pure_ok] at h
    obtain ⟨-, hp, rfl⟩ := h
    exact ⟨i, hi, hp.1, Or.inr rfl⟩

theorem writeWrap_ok {userId : UserId} {w : Bytes × DeviceId} {guard : Identity → Prop} [DecidablePred guard]
    (h : writeWrap db userId w guard = .ok db') :
    db' = { db with
      identities := db.identities.update (fun i => i.userId = userId ∧ i.deviceId = w.2 ∧ guard i) fun i =>
        { i with wrappedPrivateKey := w.1, wrapAlg := identityWrapAlg } } ∧
      ∃ i ∈ db.identities, i.userId = userId ∧ i.deviceId = w.2 ∧ guard i := by
  simp only [writeWrap, bind_ok, require_ok, pure_ok] at h
  obtain ⟨-, hg, rfl⟩ := h
  exact ⟨rfl, hg⟩

/-- The database after a password change has stored the verifier and ended what the old password gave. -/
def afterChange (cfg : Config) (db : Db) (s : Session) (p : PasswordPut) (salt : Nat) (now : Time) : Db :=
  let db₁ := setVerifier db s.userId (cfg.hashAuthSecret p.newAuthSecret salt) p.newLoginSalt p.iterations
    (fun _ => false) User.recoveryHash
  let db₂ := { db₁ with
    sessions := db₁.sessions.update (fun r => r.userId = s.userId) fun r => { r with stepupAt := none } }
  revokeDevices (revokeSessions db₂ (fun r => r.userId = s.userId ∧ r.id ≠ s.id ∧ r.revokedAt = none) now)
    (fun d => d.userId = s.userId ∧ d.platform ≠ identityPlatform ∧ d.revokedAt = none) now

theorem changePassword_ok {p : PasswordPut} {stored : String} {confirmed : Bool} {salt : Nat}
    (h : changePassword cfg db s p stored confirmed salt now = .ok db') :
    (∃ r u, LiveSession db s now r u ∧ u.authSecretHash = stored) ∧
    (p.wrapped = none → ¬hasPasswordCopy db s.userId ∧ db' = afterChange cfg db s p salt now) ∧
    (∀ w, p.wrapped = some w → ∃ guard : Identity → Prop, ∃ hg : DecidablePred guard,
      (hasPasswordCopy db s.userId → ∀ i, guard i ↔ i.wrapAlg = identityWrapAlg) ∧
      @writeWrap (afterChange cfg db s p salt now) s.userId w guard hg = .ok db') := by
  simp only [changePassword, bind_ok, require_ok] at h
  obtain ⟨-, -, -, -, hash, hh, -, hs, -, -, -, hw, h⟩ := h
  obtain ⟨r, u, hl, rfl⟩ := recheckSessionTx_ok hh
  refine ⟨⟨r, u, hl, hs⟩, ?_, ?_⟩
  · intro hn
    rw [hn] at h
    cases h
    exact ⟨fun hc => hw ⟨hc, hn⟩, rfl⟩
  · intro w hsome
    rw [hsome] at h
    simp only [decide_eq_true_eq] at h
    split at h
    · exact ⟨_, _, fun _ _ => Iff.rfl, h⟩
    · rename_i hc
      exact ⟨_, _, fun hc' => absurd hc' hc, h⟩

/-- The database after an upgrade has stored the verifier. -/
def afterUpgrade (cfg : Config) (db : Db) (s : Session) (p : PasswordPut) (salt : Nat) : Db :=
  setVerifier db s.userId (cfg.hashAuthSecret p.newAuthSecret salt) p.newLoginSalt p.iterations User.passwordAdminKnown
    User.recoveryHash

theorem upgradeLogin_ok {p : PasswordPut} {stored : String} {salt : Nat}
    (h : upgradeLogin cfg db s p stored salt now = .ok db') :
    (∃ r u, LiveSession db s now r u ∧ u.authSecretHash = stored) ∧ (hasPasswordCopy db s.userId ↔ p.wrapped ≠ none) ∧
    (p.wrapped = none → db' = afterUpgrade cfg db s p salt) ∧
    (∀ w, p.wrapped = some w →
      writeWrap (afterUpgrade cfg db s p salt) s.userId w (fun i => i.wrapAlg = identityWrapAlg) = .ok db') := by
  simp only [upgradeLogin, bind_ok, fetch_ok, require_ok] at h
  obtain ⟨-, -, -, -, hash, hh, -, hs, u', hu', -, -, -, hw, h⟩ := h
  obtain ⟨r, u, hl, rfl⟩ := recheckSessionTx_ok hh
  refine ⟨⟨r, u, hl, hs⟩, hw, ?_, ?_⟩
  · intro hn
    rw [hn] at h
    cases h
    rfl
  · intro w hsome
    rw [hsome] at h
    exact h

theorem recoverAccount_ok {userId : UserId} {p : RecoverPut} {stored nextHash : String} {salt : Nat}
    (h : recoverAccount cfg db userId p stored nextHash salt now = .ok db') :
    (∃ u ∈ db.users, u.id = userId ∧ u.recoveryHash = stored) ∧
    db' = revokeDevices
      (stripPasswordWrap
        (revokeSessions
          (setVerifier db userId (cfg.hashAuthSecret p.newAuthSecret salt) p.newLoginSalt p.iterations
            (fun _ => false) (fun _ => nextHash))
          (fun r => r.userId = userId) now) userId)
      (fun d => d.userId = userId ∧ d.platform ≠ identityPlatform) now := by
  simp only [recoverAccount, bind_ok, require_ok, pure_ok] at h
  obtain ⟨-, -, -, -, -, hu, rfl⟩ := h
  exact ⟨hu, rfl⟩

theorem resetPassword_ok {userId : UserId} {secret loginSalt : String} {iterations salt : Nat}
    (h : resetPassword cfg db userId secret loginSalt iterations salt now = .ok db') :
    db' = stripPasswordWrap
      (revokeDevices
        (revokeSessions
          (setVerifier db userId (cfg.hashAuthSecret secret salt) loginSalt iterations (fun _ => true)
            User.recoveryHash)
          (fun r => r.userId = userId) now)
        (fun d => d.userId = userId ∧ d.platform ≠ identityPlatform ∧ d.revokedAt = none) now) userId := by
  simp only [resetPassword, bind_ok, require_ok, pure_ok] at h
  obtain ⟨-, -, rfl⟩ := h
  rfl

/-! ## Frames -/

inductive Tbl
  | users | sessions | devices | identities | logoutEvents | directory | cutoffs | challenges | nonces
deriving DecidableEq

/-- The table is the same in both databases. -/
def Tbl.Same (t : Tbl) (db db' : Db) : Prop :=
  match t with
  | .users => db'.users = db.users
  | .sessions => db'.sessions = db.sessions
  | .devices => db'.devices = db.devices
  | .identities => db'.identities = db.identities
  | .logoutEvents => db'.logoutEvents = db.logoutEvents
  | .directory => db'.directory = db.directory
  | .cutoffs => db'.cutoffs = db.cutoffs
  | .challenges => db'.challenges = db.challenges
  | .nonces => db'.nonces = db.nonces

theorem Tbl.Same.trans {t : Tbl} {a b c : Db} (h₁ : t.Same a b) (h₂ : t.Same b c) : t.Same a c := by
  cases t <;> exact Eq.trans h₂ h₁

/-- The tables that an operation may write. -/
def Op.touches : Op → List Tbl
  | .tick _ | .mintPairing .. => []
  | .saveSettings .. | .login .. | .ssoLogin .. | .extendSession .. | .stepUp .. | .revokeSession _ | .logoutAll _ =>
    [.sessions]
  | .createAccount _ => [.users]
  | .collectSessions => [.sessions, .challenges]
  | .ssoLogout .. => [.logoutEvents, .sessions, .devices]
  | .requireSSOStepUp .. | .beginSSOStepUp .. | .cancelSSOStepUp .. | .completeSSOStepUp .. | .consumeSSOStepUp .. =>
    [.challenges]
  | .deliver .. => [.directory, .users, .sessions, .devices, .cutoffs]
  | .patchUser .. => [.users, .sessions, .devices]
  | .grantAdmin .. => [.users, .sessions, .devices, .cutoffs]
  | .register .. => [.nonces, .devices]
  | .revokeDevice .. => [.devices]
  | .putIdentity .. => [.sessions, .devices, .identities]
  | .putRecovery .. => [.identities]
  | .changePassword .. | .recoverAccount .. | .resetPassword .. => [.users, .sessions, .devices, .identities]
  | .upgradeLogin .. => [.users, .identities]

theorem applyDelivery_same {e : Delivery} {issuer : String} {revision : Nat} {active : Bool} {new : Fresh} {t : Tbl}
    (ht : t ∉ [Tbl.directory, .users, .sessions, .devices, .cutoffs])
    (h : applyDelivery cfg db e issuer revision active new now = .ok db') : t.Same db db' := by
  obtain ⟨db₁, h₁, rfl⟩ := applyDelivery_ok h
  have hw : t.Same db (withState cfg db e issuer revision active now) := by
    cases t <;> first | rfl | simp at ht
  have hs : t.Same (withState cfg db e issuer revision active now) db₁ := by
    rcases syncSingleUser_ok h₁ with ⟨-, -, rfl⟩ | ⟨-, -, hi⟩ | ⟨x, -, -, -, -, rfl⟩
    · cases t <;> rfl
    · obtain ⟨-, _, -, rfl⟩ := insertUser_ok hi
      cases t <;> first | rfl | simp at ht
    · unfold afterRoleChange
      split <;> cases t <;> first | rfl | simp at ht
  have he : t.Same db₁ (if active then db₁ else endIdentity db₁ issuer e.resource.id now) := by
    split <;> cases t <;> first | rfl | simp at ht
  exact (hw.trans hs).trans he

/-- A transaction writes only the tables that its operation touches. -/
theorem tx_frame {w : World} {op : Op} (h : tx cfg w op = .ok db') {t : Tbl} (ht : t ∉ op.touches) :
    t.Same w.db db' := by
  cases op with
  | tick d => cases h; cases t <;> rfl
  | saveSettings cached settings =>
    cases h
    unfold Auth.saveSettings
    split <;> cases t <;> first | rfl | simp [Op.touches] at ht
  | createAccount u =>
    obtain ⟨-, _, -, rfl⟩ := insertUser_ok h
    cases t <;> first | rfl | simp [Op.touches] at ht
  | login userId secret stored prepared =>
    simp only [tx, bind_ok, require_ok] at h
    obtain ⟨-, -, h⟩ := h
    obtain ⟨-, _, -, rfl⟩ := mintPasswordSession_ok h
    cases t <;> first | rfl | simp [Op.touches] at ht
  | ssoLogin userId i prepared =>
    obtain ⟨-, -, _, -, rfl⟩ := mintSSOSession_ok.mp h
    cases t <;> first | rfl | simp [Op.touches] at ht
  | extendSession id seen => cases h; cases t <;> first | rfl | simp [Op.touches] at ht
  | stepUp s secret stored =>
    obtain ⟨-, -, rfl⟩ := stepUp_ok h
    cases t <;> first | rfl | simp [Op.touches] at ht
  | revokeSession id => cases h; cases t <;> first | rfl | simp [Op.touches] at ht
  | logoutAll userId => cases h; cases t <;> first | rfl | simp [Op.touches] at ht
  | collectSessions => cases h; cases t <;> first | rfl | simp [Op.touches] at ht
  | ssoLogout c clientId =>
    obtain ⟨-, -, _, -, rfl⟩ := applySSOLogout_ok.mp h
    cases t <;> first | rfl | simp [Op.touches] at ht
  | requireSSOStepUp s action scope allow =>
    obtain ⟨-, _, -, rfl⟩ := requireSSOStepUp_ok h
    cases t <;> first | rfl | simp [Op.touches] at ht
  | beginSSOStepUp s id seen =>
    obtain ⟨_, -, -, rfl⟩ := beginSSOStepUp_ok h
    cases t <;> first | rfl | simp [Op.touches] at ht
  | cancelSSOStepUp s id => cases h; cases t <;> first | rfl | simp [Op.touches] at ht
  | completeSSOStepUp s id i authTime =>
    obtain ⟨_, -, -, -, -, rfl⟩ := completeSSOStepUp_ok h
    cases t <;> first | rfl | simp [Op.touches] at ht
  | consumeSSOStepUp s id action scope =>
    obtain ⟨_, -, -, -, rfl⟩ := consumeSSOStepUp_ok h
    cases t <;> first | rfl | simp [Op.touches] at ht
  | deliver settings e hash salt =>
    obtain ⟨⟨_, a⟩, hd, rfl⟩ := map_ok.mp h
    obtain ⟨revision, active, -, ⟨-, -, ha⟩ | ⟨-, -, rfl⟩⟩ := directoryRequest_ok hd
    · have hs := applyDelivery_same ht ha
      cases t <;> exact hs
    · cases t <;> rfl
  | patchUser s id role status quotaBytes =>
    obtain ⟨-, -, u, -, -, rfl⟩ := patchUser_ok h
    simp only
    split <;> cases t <;> first | rfl | simp [Op.touches] at ht
  | grantAdmin userId issuer subject =>
    obtain rfl := grantAdmin_ok h
    cases t <;> first | rfl | simp [Op.touches] at ht
  | mintPairing s nonce seen =>
    obtain ⟨_, -, rfl⟩ := map_ok.mp h
    cases t <;> rfl
  | register c g seen =>
    simp only [tx, bind_ok, require_ok] at h
    obtain ⟨-, -, h⟩ := h
    obtain ⟨-, -, -, _, _, -, _, _, -, -, rfl⟩ := registerDevice_ok h
    cases t <;> first | rfl | simp [Op.touches] at ht
  | revokeDevice s id =>
    obtain rfl := revokeDevice_ok h
    cases t <;> first | rfl | simp [Op.touches] at ht
  | putIdentity s p unusable =>
    obtain ⟨-, -, db₁, hp, hi⟩ := putIdentity_ok h
    obtain ⟨-, -, _, _, -, -, rfl⟩ := insertIdentity_ok hi
    rcases hp with ⟨-, rfl⟩ | ⟨-, rfl⟩ <;> cases t <;> first | rfl | simp [Op.touches] at ht
  | putRecovery s p =>
    obtain ⟨_, -, -, ⟨-, -, rfl⟩ | rfl⟩ := putRecovery_ok h <;> cases t <;> first | rfl | simp [Op.touches] at ht
  | changePassword s p stored confirmed salt =>
    obtain ⟨-, hn, hw⟩ := changePassword_ok h
    cases hp : p.wrapped with
    | none =>
      obtain ⟨-, rfl⟩ := hn hp
      cases t <;> first | rfl | simp [Op.touches] at ht
    | some w =>
      obtain ⟨_, _, -, hg⟩ := hw w hp
      obtain ⟨rfl, -⟩ := writeWrap_ok hg
      cases t <;> first | rfl | simp [Op.touches] at ht
  | upgradeLogin s p stored salt =>
    obtain ⟨-, -, hn, hw⟩ := upgradeLogin_ok h
    cases hp : p.wrapped with
    | none =>
      obtain rfl := hn hp
      cases t <;> first | rfl | simp [Op.touches] at ht
    | some w =>
      obtain ⟨rfl, -⟩ := writeWrap_ok (hw w hp)
      cases t <;> first | rfl | simp [Op.touches] at ht
  | recoverAccount userId p stored nextHash salt =>
    obtain ⟨-, rfl⟩ := recoverAccount_ok h
    cases t <;> first | rfl | simp [Op.touches] at ht
  | resetPassword userId secret loginSalt iterations salt =>
    obtain rfl := resetPassword_ok h
    cases t <;> first | rfl | simp [Op.touches] at ht

end KyNotes.Auth
