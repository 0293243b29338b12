import KyNotes.Auth.Dismissal

/-!
# What a transaction does to verifiers, step-ups and identity copies

* `tx_secrets`: an account keeps its verifier and its flag unless the operation stores a verifier for it (`Op.stores`).
* `tx_sessions`: how a session comes by its step-up.
* `tx_identities`: how an identity row comes by its copies.
* `tx_paired`: every identity row has its identity device, and the other way round.
-/

namespace KyNotes.Auth

open Relational Check Transition

variable {cfg : Config} {db db' : Db} {now : Time} {w : World} {op : Op}

/-- The account whose password verifier the operation stores. -/
def Op.stores : Op → Option UserId
  | .changePassword s .. | .upgradeLogin s .. => some s.userId
  | .recoverAccount userId .. | .resetPassword userId .. => some userId
  | _ => none

/-- The account whose verifier the operation replaces by a stronger one of the same password. -/
def Op.upgrades : Op → Option UserId
  | .upgradeLogin s .. => some s.userId
  | _ => none

/-- The session whose step-up the operation stores. -/
def Op.proves : Op → Option SessionId
  | .stepUp s .. => some s.id
  | _ => none

/-! ## Verifiers -/

/-- The accounts of `db'` are those of `db` and a fresh one; all but one keep their verifiers. -/
def KeepsSecrets (stored : Option UserId) (fresh : UserId) (db db' : Db) : Prop :=
  ∀ u' ∈ db'.users, u'.id = fresh ∨ ∃ u ∈ db.users, u.id = u'.id ∧
    (stored ≠ some u'.id → u'.authSecretHash = u.authSecretHash ∧ u'.passwordAdminKnown = u.passwordAdminKnown)

variable {stored : Option UserId} {fresh : UserId}

theorem KeepsSecrets.of_users (h : db'.users = db.users) : KeepsSecrets stored fresh db db' := by
  intro u' hu'
  rw [h] at hu'
  exact Or.inr ⟨u', hu', rfl, fun _ => ⟨rfl, rfl⟩⟩

theorem KeepsSecrets.insert {u : User} (h : insertUser db u = .ok db') (hid : u.id = fresh) :
    KeepsSecrets stored fresh db db' := by
  obtain ⟨-, t, ht, rfl⟩ := insertUser_ok h
  intro u' hu'
  rcases (Table.mem_insert ht).mp hu' with hu' | rfl
  · exact Or.inr ⟨u', hu', rfl, fun _ => ⟨rfl, rfl⟩⟩
  · exact Or.inl hid

theorem KeepsSecrets.update {p : User → Prop} [DecidablePred p] {f : User → User}
    (h : db'.users = db.users.update p f) (hid : ∀ u, (f u).id = u.id)
    (hf : ∀ u, p u → stored ≠ some u.id →
      (f u).authSecretHash = u.authSecretHash ∧ (f u).passwordAdminKnown = u.passwordAdminKnown) :
    KeepsSecrets stored fresh db db' := by
  intro u' hu'
  rw [h] at hu'
  rcases Table.mem_update_cases hu' hid with ⟨hu', -⟩ | ⟨u, hu, hp, rfl⟩
  · exact Or.inr ⟨u', hu', rfl, fun _ => ⟨rfl, rfl⟩⟩
  · exact Or.inr ⟨u, hu, (hid u).symm, fun hs => hf u hp (by rw [← hid u]; exact hs)⟩

theorem KeepsSecrets.setVerifier {userId : UserId} {hash salt : String} {iterations : Nat} {known : User → Bool}
    {recovery : User → String} (h : db'.users = (setVerifier db userId hash salt iterations known recovery).users) :
    KeepsSecrets (some userId) fresh db db' :=
  KeepsSecrets.update h (fun _ => rfl) fun _ hu hne => absurd (congrArg some hu.symm) hne

theorem KeepsSecrets.syncSingleUser {issuer : String} {u : DirectoryUser} {active : Bool} {new : Fresh}
    (h : syncSingleUser cfg db issuer u active new now = .ok db') (hid : new.id = fresh) :
    KeepsSecrets stored fresh db db' := by
  rcases syncSingleUser_ok h with ⟨-, -, rfl⟩ | ⟨-, -, hi⟩ | ⟨x, -, -, -, -, rfl⟩
  · exact KeepsSecrets.of_users rfl
  · exact KeepsSecrets.insert hi hid
  · exact KeepsSecrets.update rfl (fun _ => rfl) fun _ _ _ => ⟨rfl, rfl⟩

/-- An account keeps its verifier and its flag unless the operation stores a verifier for it. -/
theorem tx_secrets (h : tx cfg w op = .ok db') : KeepsSecrets op.stores w.next w.db db' := by
  cases op with
  | createAccount u => exact KeepsSecrets.insert h rfl
  | deliver settings e hash salt =>
    obtain ⟨⟨_, a⟩, hd, rfl⟩ := map_ok.mp h
    obtain ⟨revision, active, -, ⟨-, -, happ⟩ | ⟨-, -, rfl⟩⟩ := directoryRequest_ok hd
    · obtain ⟨db₁, h₁, rfl⟩ := applyDelivery_ok happ
      have hend : (if active then db₁ else endIdentity db₁ settings.ssoIssuerUrl e.resource.id w.clock).users =
          db₁.users := by split <;> rfl
      intro u' hu'
      rw [hend] at hu'
      exact KeepsSecrets.syncSingleUser h₁ rfl u' hu'
    · exact KeepsSecrets.of_users rfl
  | patchUser s id role status quotaBytes =>
    obtain ⟨-, -, u, -, -, rfl⟩ := patchUser_ok h
    refine KeepsSecrets.update (p := fun x => x.id = id)
      (f := fun x => { x with role := role, status := status, quotaBytes := quotaBytes }) ?_ (fun _ => rfl)
      fun _ _ _ => ⟨rfl, rfl⟩
    simp only
    split <;> rfl
  | grantAdmin userId issuer subject =>
    obtain rfl := grantAdmin_ok h
    exact KeepsSecrets.update rfl (fun _ => rfl) fun _ _ _ => ⟨rfl, rfl⟩
  | changePassword s p stored confirmed salt =>
    obtain ⟨-, hn, hw⟩ := changePassword_ok h
    cases hp : p.wrapped with
    | none =>
      obtain ⟨-, rfl⟩ := hn hp
      exact KeepsSecrets.setVerifier rfl
    | some x =>
      obtain ⟨_, _, -, hg⟩ := hw x hp
      obtain ⟨rfl, -⟩ := writeWrap_ok hg
      exact KeepsSecrets.setVerifier rfl
  | upgradeLogin s p stored salt =>
    obtain ⟨-, -, hn, hw⟩ := upgradeLogin_ok h
    cases hp : p.wrapped with
    | none =>
      obtain rfl := hn hp
      exact KeepsSecrets.setVerifier rfl
    | some x =>
      obtain ⟨rfl, -⟩ := writeWrap_ok (hw x hp)
      exact KeepsSecrets.setVerifier rfl
  | recoverAccount userId p stored nextHash salt =>
    obtain ⟨-, rfl⟩ := recoverAccount_ok h
    exact KeepsSecrets.setVerifier rfl
  | resetPassword userId secret loginSalt iterations salt =>
    obtain rfl := resetPassword_ok h
    exact KeepsSecrets.setVerifier rfl
  | _ => exact KeepsSecrets.of_users (tx_frame h (t := .users) (by simp [Op.touches]))

/-! ## Step-ups -/

/-- How a session that is stored after a transaction comes by its step-up. A transaction that stores a verifier and is
no upgrade leaves no step-up in a live session of the account. -/
inductive SessionStep (cfg : Config) (w : World) (op : Op) (r' : SessionRow) : Prop
  | off (h : r'.revokedAt = none → r'.stepupAt = none)
  | kept (r : SessionRow) (hr : r ∈ w.db.sessions) (hid : r.id = r'.id) (hu : r.userId = r'.userId)
      (hs : r.stepupAt = r'.stepupAt) (hl : r'.revokedAt = none → r.revokedAt = none)
      (hop : r'.revokedAt = none → op.stores = some r'.userId → op.upgrades = some r'.userId)
      (hnot : op.proves ≠ some r'.id)
  | proved (s : Session) (secret stored : String) (hop : op = .stepUp s secret stored) (hid : s.id = r'.id)
      (hu : s.userId = r'.userId) (hv : cfg.verifyAuthSecret secret stored = true)
      (hcur : ∃ u ∈ w.db.users, u.id = r'.userId ∧ u.authSecretHash = stored)

/-- Sessions that a transaction leaves or ends keep their step-ups. -/
def KeepsStepUps (db db' : Db) : Prop :=
  ∀ r' ∈ db'.sessions, (r'.revokedAt = none → r'.stepupAt = none) ∨ ∃ r ∈ db.sessions, r.id = r'.id ∧
    r.userId = r'.userId ∧ r.stepupAt = r'.stepupAt ∧ (r'.revokedAt = none → r.revokedAt = none)

theorem KeepsStepUps.of_sessions (h : db'.sessions = db.sessions) : KeepsStepUps db db' := by
  intro r' hr'
  rw [h] at hr'
  exact Or.inr ⟨r', hr', rfl, rfl, rfl, id⟩

theorem KeepsStepUps.update {p : SessionRow → Prop} [DecidablePred p] {f : SessionRow → SessionRow}
    (h : db'.sessions = db.sessions.update p f)
    (hf : ∀ r, (f r).id = r.id ∧ (f r).userId = r.userId ∧ (f r).stepupAt = r.stepupAt ∧
      ((f r).revokedAt = none → r.revokedAt = none)) : KeepsStepUps db db' := by
  intro r' hr'
  rw [h] at hr'
  rcases Table.mem_update_cases hr' (fun r => (hf r).1) with ⟨hr', -⟩ | ⟨r, hr, -, rfl⟩
  · exact Or.inr ⟨r', hr', rfl, rfl, rfl, id⟩
  · exact Or.inr ⟨r, hr, (hf r).1.symm, (hf r).2.1.symm, (hf r).2.2.1.symm, (hf r).2.2.2⟩

theorem KeepsStepUps.insert {r : SessionRow} {t : Table SessionRow.id} (h : db.sessions.insert r = some t)
    (hs : db'.sessions = t) (hr : r.stepupAt = none) : KeepsStepUps db db' := by
  intro r' hr'
  rw [hs] at hr'
  rcases (Table.mem_insert h).mp hr' with hr' | rfl
  · exact Or.inr ⟨r', hr', rfl, rfl, rfl, id⟩
  · exact Or.inl fun _ => hr

theorem KeepsStepUps.revokeSessions {p : SessionRow → Prop} [DecidablePred p]
    (h : db'.sessions = (revokeSessions db p now).sessions) : KeepsStepUps db db' :=
  KeepsStepUps.update h fun _ => ⟨rfl, rfl, rfl, nofun⟩

theorem KeepsStepUps.trans {a b c : Db} (h₁ : KeepsStepUps a b) (h₂ : KeepsStepUps b c) : KeepsStepUps a c := by
  intro x hx
  rcases h₂ x hx with hoff | ⟨y, hy, hid, hu, hs, hl⟩
  · exact Or.inl hoff
  · rcases h₁ y hy with hoff | ⟨z, hz, hid', hu', hs', hl'⟩
    · exact Or.inl fun hn => hs ▸ hoff (hl hn)
    · exact Or.inr ⟨z, hz, hid'.trans hid, hu'.trans hu, hs'.trans hs, fun hn => hl' (hl hn)⟩

/-- Where the operation stores no verifier and proves none. -/
theorem KeepsStepUps.step (h : KeepsStepUps w.db db') (hst : op.stores = none) (hpr : op.proves = none)
    {r' : SessionRow} (hr' : r' ∈ db'.sessions) : SessionStep cfg w op r' := by
  rcases h r' hr' with hoff | ⟨r, hr, hid, hu, hs, hl⟩
  · exact .off hoff
  · refine .kept r hr hid hu hs hl (fun _ h => ?_) ?_
    · rw [hst] at h
      cases h
    · rw [hpr]
      exact nofun

/-- A session that is live after a revocation was live before, and the revocation missed it. -/
theorem mem_revokeSessions {p : SessionRow → Prop} [DecidablePred p] {r' : SessionRow}
    (h : r' ∈ (revokeSessions db p now).sessions) (hl : r'.revokedAt = none) : r' ∈ db.sessions ∧ ¬p r' := by
  rcases Table.mem_update_cases h with hr | ⟨r, -, -, rfl⟩
  · exact hr
  · cases hl

/-- A live session of another account than the one whose sessions were revoked. -/
theorem SessionStep.other {userId : UserId} {r' : SessionRow}
    (h : r' ∈ (revokeSessions w.db (fun r => r.userId = userId) now).sessions) (hl : r'.revokedAt = none)
    (hst : op.stores = some userId) (hpr : op.proves = none) : SessionStep cfg w op r' := by
  obtain ⟨hr, hne⟩ := mem_revokeSessions h hl
  refine .kept r' hr rfl rfl rfl (fun hn => hn) (fun _ h => ?_) ?_
  · rw [hst] at h
    exact absurd (Option.some.inj h).symm hne
  · rw [hpr]
    exact nofun

theorem afterRoleChange_sessions {u : DirectoryUser} {issuer : String} {x : User} :
    KeepsStepUps db (afterRoleChange db u issuer x now) := by
  unfold afterRoleChange
  split
  · exact KeepsStepUps.revokeSessions (p := fun r => r.userId = x.id ∧ r.revokedAt = none) rfl
  · exact KeepsStepUps.of_sessions rfl

theorem syncSingleUser_sessions {issuer : String} {u : DirectoryUser} {active : Bool} {new : Fresh}
    (h : syncSingleUser cfg db issuer u active new now = .ok db') : KeepsStepUps db db' := by
  rcases syncSingleUser_ok h with ⟨-, -, rfl⟩ | ⟨-, -, hi⟩ | ⟨x, -, -, -, -, rfl⟩
  · exact KeepsStepUps.of_sessions rfl
  · obtain ⟨-, t, -, rfl⟩ := insertUser_ok hi
    exact KeepsStepUps.of_sessions rfl
  · have key : KeepsStepUps db (afterRoleChange db u issuer x now) := afterRoleChange_sessions
    exact key.trans (KeepsStepUps.of_sessions rfl)

theorem endIdentity_sessions {issuer subject : String} : KeepsStepUps db (endIdentity db issuer subject now) :=
  KeepsStepUps.update rfl fun _ => ⟨rfl, rfl, rfl, nofun⟩

theorem deliver_sessions {settings : Settings} {e : Delivery} {hash salt : String}
    (h : tx cfg w (.deliver settings e hash salt) = .ok db') : KeepsStepUps w.db db' := by
  obtain ⟨⟨_, a⟩, hd, rfl⟩ := map_ok.mp h
  obtain ⟨revision, active, -, ⟨-, -, happ⟩ | ⟨-, -, rfl⟩⟩ := directoryRequest_ok hd
  · obtain ⟨db₁, h₁, rfl⟩ := applyDelivery_ok happ
    have hstate : KeepsStepUps w.db (withState cfg (withSyncEvent cfg w.db e settings.ssoIssuerUrl w.clock) e
        settings.ssoIssuerUrl revision active w.clock) := KeepsStepUps.of_sessions rfl
    refine (hstate.trans (syncSingleUser_sessions h₁)).trans ?_
    split
    · exact KeepsStepUps.of_sessions rfl
    · exact endIdentity_sessions
  · exact KeepsStepUps.of_sessions rfl

theorem tx_sessions (h : tx cfg w op = .ok db') {r' : SessionRow} (hr' : r' ∈ db'.sessions) :
    SessionStep cfg w op r' := by
  by_cases hlive : r'.revokedAt = none
  case neg => exact .off fun hl => absurd hl hlive
  cases op with
  | saveSettings cached settings =>
    cases h
    refine KeepsStepUps.step ?_ rfl rfl hr'
    unfold saveSettings
    simp only
    split
    · exact KeepsStepUps.revokeSessions (p := fun r => r.ssoIssuer ≠ "" ∧ r.revokedAt = none) rfl
    · exact KeepsStepUps.of_sessions rfl
  | login userId secret stored prepared =>
    simp only [tx, bind_ok, require_ok] at h
    obtain ⟨-, -, h⟩ := h
    obtain ⟨-, t, ht, rfl⟩ := mintPasswordSession_ok h
    exact (KeepsStepUps.insert ht rfl rfl).step rfl rfl hr'
  | ssoLogin userId i prepared =>
    obtain ⟨-, -, t, ht, rfl⟩ := mintSSOSession_ok.mp h
    exact (KeepsStepUps.insert ht rfl rfl).step rfl rfl hr'
  | extendSession id seen =>
    cases h
    refine KeepsStepUps.step (KeepsStepUps.update (p := fun r => r.id = id)
      (f := fun r => { r with expiresAt := min (format (seen + day)) r.hardExpiresAt }) rfl
      fun _ => ⟨rfl, rfl, rfl, fun hn => hn⟩) rfl rfl hr'
  | stepUp s secret stored =>
    obtain ⟨hv, ⟨r, u, hl, hu⟩, rfl⟩ := stepUp_ok h
    obtain ⟨hm, hid⟩ := Table.get_eq_some.mp hl.row
    obtain ⟨hum, huid⟩ := Table.get_eq_some.mp hl.owner
    rcases Table.mem_update_cases hr' with ⟨hr', hne⟩ | ⟨x, hx, hxid, rfl⟩
    · refine .kept r' hr' rfl rfl rfl (fun hn => hn) (fun _ hst => by cases hst) ?_
      exact fun hs => hne (Option.some.inj hs).symm
    · have hxr : x = r := Table.eq_of_key hx hm (hxid.trans hid.symm)
      subst hxr
      exact .proved s secret stored rfl hid.symm hl.user.symm hv ⟨u, hum, huid, hu⟩
  | revokeSession id =>
    cases h
    exact (KeepsStepUps.revokeSessions (p := fun r => r.id = id) rfl).step rfl rfl hr'
  | logoutAll userId =>
    cases h
    exact (KeepsStepUps.revokeSessions (p := fun r => r.userId = userId) rfl).step rfl rfl hr'
  | collectSessions =>
    cases h
    exact .kept r' (Table.mem_delete.mp hr').1 rfl rfl rfl (fun hn => hn) (fun _ hst => by cases hst)
      (fun hpr => by cases hpr)
  | ssoLogout c clientId =>
    obtain ⟨-, -, t, -, rfl⟩ := applySSOLogout_ok.mp h
    exact (KeepsStepUps.revokeSessions (p := fun r => r.revokedAt = none ∧ c.covers clientId r) rfl).step rfl rfl hr'
  | deliver settings e hash salt => exact (deliver_sessions h).step rfl rfl hr'
  | patchUser s id role status quotaBytes =>
    refine KeepsStepUps.step ?_ rfl rfl hr'
    obtain ⟨-, -, u, -, -, rfl⟩ := patchUser_ok h
    simp only
    split
    · exact KeepsStepUps.revokeSessions (p := fun r => r.userId = id ∧ r.revokedAt = none) rfl
    · exact KeepsStepUps.of_sessions rfl
  | grantAdmin userId issuer subject =>
    obtain rfl := grantAdmin_ok h
    exact (KeepsStepUps.revokeSessions (p := fun r => r.userId = userId ∧ r.revokedAt = none) rfl).step rfl rfl hr'
  | putIdentity s p unusable =>
    refine KeepsStepUps.step ?_ rfl rfl hr'
    obtain ⟨-, -, db₁, hp, hi⟩ := putIdentity_ok h
    obtain ⟨-, -, devices, identities, -, -, rfl⟩ := insertIdentity_ok hi
    rcases hp with ⟨-, rfl⟩ | ⟨-, rfl⟩
    · exact KeepsStepUps.of_sessions rfl
    · exact KeepsStepUps.revokeSessions (p := fun r => r.userId = s.userId ∧ r.id ≠ s.id ∧ r.revokedAt = none) rfl
  | changePassword s p stored confirmed salt =>
    have hsess : db'.sessions = (afterChange cfg w.db s p salt w.clock).sessions := by
      obtain ⟨-, hn, hw⟩ := changePassword_ok h
      cases hp : p.wrapped with
      | none => rw [(hn hp).2]
      | some x =>
        obtain ⟨_, _, -, hg⟩ := hw x hp
        rw [(writeWrap_ok hg).1]
    rw [hsess] at hr'
    -- the step-ups of the account went before its other sessions
    rcases Table.mem_update_cases (mem_revokeSessions hr' hlive).1 with ⟨hr, hne⟩ | ⟨r, hr, hid, rfl⟩
    · refine .kept r' hr rfl rfl rfl (fun hn => hn) (fun _ hst => ?_) (fun hpr => by cases hpr)
      exact absurd (Option.some.inj hst).symm hne
    · exact .off fun _ => rfl
  | upgradeLogin s p stored salt =>
    have hsess : db'.sessions = w.db.sessions := by
      obtain ⟨-, -, hn, hw⟩ := upgradeLogin_ok h
      cases hp : p.wrapped with
      | none => rw [hn hp]; rfl
      | some x => rw [(writeWrap_ok (hw x hp)).1]; rfl
    rw [hsess] at hr'
    exact .kept r' hr' rfl rfl rfl (fun hn => hn) (fun _ hst => hst) (fun hpr => by cases hpr)
  | recoverAccount userId p stored nextHash salt =>
    obtain ⟨-, rfl⟩ := recoverAccount_ok h
    exact SessionStep.other hr' hlive rfl rfl
  | resetPassword userId secret loginSalt iterations salt =>
    obtain rfl := resetPassword_ok h
    exact SessionStep.other hr' hlive rfl rfl
  | _ =>
    exact KeepsStepUps.step (KeepsStepUps.of_sessions (tx_frame h (t := .sessions) (by simp [Op.touches]))) rfl rfl hr'

/-! ## Copies -/

/-- The password copy with its identity that a password change or an upgrade supplies. -/
def Op.rewraps : Op → Option (Bytes × DeviceId)
  | .changePassword _ p .. | .upgradeLogin _ p .. => p.wrapped
  | _ => none

/-- The row with the password copy that `w` re-wraps. -/
def Identity.rewrapped (i : Identity) (key : Bytes) : Identity :=
  { i with wrappedPrivateKey := key, wrapAlg := identityWrapAlg }

def Identity.stripped (i : Identity) : Identity := { i with wrapAlg := deviceOnlyWrapAlg, wrappedPrivateKey := [] }

def Identity.uploaded (i : Identity) (c : RecoveryCopy) (id : RecoveryId) : Identity :=
  { i with recoveryId := some id, recoveryAlg := c.wrapAlg, recoveryWrappedKey := c.wrappedKey }

/-- How an identity row that is stored after a transaction comes by its copies. A transaction that stores a verifier
keeps no password copy of the account. -/
inductive IdentityStep (cfg : Config) (w : World) (op : Op) (db' : Db) (i' : Identity) : Prop
  | kept (h : i' ∈ w.db.identities) (hop : op.stores = some i'.userId → ¬i'.hasPasswordCopy)
  | stripped (i : Identity) (hi : i ∈ w.db.identities) (h : i' = i.stripped)
  | uploaded (i : Identity) (hi : i ∈ w.db.identities) (s : Session) (p : RecoveryPut) (hop : op = .putRecovery s p)
      (hu : i.userId = s.userId) (hd : i.deviceId = p.deviceId) (h : i' = i.uploaded p.copy w.next)
  | created (s : Session) (p : IdentityPut) (unusable : String) (hop : op = .putIdentity s p unusable)
      (hcopy : p.wrapAlg = identityWrapAlg → recheckUserStepUpTx w.db s w.clock = .ok ())
      (h : i' = newIdentity s p w.next w.next)
  | rewrapped (i : Identity) (hi : i ∈ w.db.identities) (key : Bytes) (hop : op.stores = some i.userId)
      (hw : op.rewraps = some (key, i.deviceId)) (h : i' = i.rewrapped key)
      (hflag : ∀ u' ∈ db'.users, u'.id = i.userId → u'.passwordAdminKnown = true →
        i.hasPasswordCopy ∧ ∃ u ∈ w.db.users, u.id = i.userId ∧ u.passwordAdminKnown = true)

theorem deviceOnly_ne : deviceOnlyWrapAlg ≠ identityWrapAlg := by decide

/-- A row after `stripPasswordWrapTx`, for an operation that stores a verifier of the account. -/
theorem stripped_step {userId : UserId} {i' : Identity} (hst : op.stores = some userId)
    (h : i' ∈ (stripPasswordWrap w.db userId).identities) : IdentityStep cfg w op db' i' := by
  rcases Table.mem_update_cases h with ⟨hi, hne⟩ | ⟨i, hi, -, rfl⟩
  · refine .kept hi fun hop hcopy => hne ⟨?_, hcopy⟩
    rw [hst] at hop
    exact (Option.some.inj hop).symm
  · exact .stripped i hi rfl

/-- A row after a statement that stores a password copy, where the operation stores a verifier of the account. -/
theorem writeWrap_step {userId : UserId} {x : Bytes × DeviceId} {guard : Identity → Prop} [DecidablePred guard] {v : Db}
    (hv : v.identities = w.db.identities) (h : writeWrap v userId x guard = .ok db') (hst : op.stores = some userId)
    (hw : op.rewraps = some x) {i' : Identity} (hi' : i' ∈ db'.identities)
    (hflag : ∀ i ∈ w.db.identities, i.userId = userId → guard i → ∀ u' ∈ db'.users, u'.id = userId →
      u'.passwordAdminKnown = true →
        i.hasPasswordCopy ∧ ∃ u ∈ w.db.users, u.id = userId ∧ u.passwordAdminKnown = true) :
    IdentityStep cfg w op db' i' := by
  obtain ⟨rfl, i₀, hi₀, hu₀, hd₀, hg₀⟩ := writeWrap_ok h
  rw [hv] at hi₀
  simp only [hv] at hi'
  rcases Table.mem_update_cases hi' with ⟨hi, hne⟩ | ⟨i, hi, ⟨hu, hd, hg⟩, rfl⟩
  · -- the row of the account was hit
    refine .kept hi fun hop _ => ?_
    have hu : i'.userId = userId := by
      rw [hst] at hop
      exact (Option.some.inj hop).symm
    have heq : i' = i₀ := Table.eq_of_key hi hi₀ (hu.trans hu₀.symm)
    exact hne (heq ▸ ⟨hu₀, hd₀, hg₀⟩)
  · refine .rewrapped i hi x.1 (hst.trans (congrArg some hu.symm)) (hw.trans (by rw [hd])) rfl ?_
    intro u' hu' hid hk
    rw [hu]
    exact hflag i hi hu hg u' hu' (hid.trans hu) hk

/-- An account whose verifier was stored. -/
theorem setVerifier_user (db : Db) {userId : UserId} {hash salt : String} {iterations : Nat} {known : User → Bool}
    {recovery : User → String} {u' : User}
    (h : u' ∈ (setVerifier db userId hash salt iterations known recovery).users) (hid : u'.id = userId) :
    ∃ u ∈ db.users, u.id = userId ∧ u'.authSecretHash = hash ∧ u'.passwordAdminKnown = known u := by
  rcases Table.mem_update_cases h with ⟨-, hne⟩ | ⟨u, hu, huid, rfl⟩
  · exact absurd hid hne
  · exact ⟨u, hu, huid, rfl, rfl⟩

theorem tx_identities (h : tx cfg w op = .ok db') {i' : Identity} (hi' : i' ∈ db'.identities) :
    IdentityStep cfg w op db' i' := by
  cases op with
  | putIdentity s p unusable =>
    obtain ⟨hwf, hact, db₁, hp, hi⟩ := putIdentity_ok h
    obtain ⟨-, -, devices, identities, -, hins, rfl⟩ := insertIdentity_ok hi
    rcases (Table.mem_insert hins).mp hi' with hold | hnew
    · have hmem : i' ∈ w.db.identities := by
        rcases hp with ⟨-, rfl⟩ | ⟨-, rfl⟩
        · exact hold
        · exact (Table.mem_delete.mp hold).1
      exact .kept hmem fun hop => by cases hop
    · refine .created s p unusable rfl (fun halg => ?_) hnew
      rcases recheckUserActionTx_ok hact with ⟨-, hstep⟩ | ⟨hsso, -⟩
      · exact hstep
      · -- an SSO session stores no password copy
        rcases hwf.2.1 with ⟨hn, -⟩ | ⟨-, hd, -⟩
        · simp [hsso] at hn
        · exact absurd (hd.symm.trans halg) deviceOnly_ne
  | putRecovery s p =>
    obtain ⟨i, hget, hd, ⟨-, -, rfl⟩ | rfl⟩ := putRecovery_ok h
    · exact .kept hi' fun hop => by cases hop
    · obtain ⟨hi, hid⟩ := Table.get_eq_some.mp hget
      rcases Table.mem_update_cases hi' with ⟨hold, -⟩ | ⟨x, hx, ⟨hxu, -⟩, rfl⟩
      · exact .kept hold fun hop => by cases hop
      · have hxi : x = i := Table.eq_of_key hx hi (hxu.trans hid.symm)
        subst hxi
        exact .uploaded x hx s p rfl hxu hd rfl
  | changePassword s p stored confirmed salt =>
    obtain ⟨-, hn, hw⟩ := changePassword_ok h
    cases hp : p.wrapped with
    | none =>
      obtain ⟨hno, rfl⟩ := hn hp
      refine .kept hi' fun hop hcopy => hno ⟨i', hi', ?_, hcopy⟩
      exact (Option.some.inj hop).symm
    | some x =>
      obtain ⟨guard, hdec, hg, hwrite⟩ := hw x hp
      have hv : (afterChange cfg w.db s p salt w.clock).identities = w.db.identities := rfl
      have hre : (Op.changePassword s p stored confirmed salt).rewraps = some x := hp
      refine writeWrap_step hv hwrite rfl hre hi' fun i _ _ _ u' hu' hid hk => ?_
      obtain ⟨rfl, -⟩ := writeWrap_ok hwrite
      obtain ⟨u, -, -, -, hflag⟩ := setVerifier_user w.db hu' hid
      rw [hflag] at hk
      cases hk
  | upgradeLogin s p stored salt =>
    obtain ⟨-, hiff, hn, hw⟩ := upgradeLogin_ok h
    cases hp : p.wrapped with
    | none =>
      obtain rfl := hn hp
      refine .kept hi' fun hop hcopy => absurd hp (hiff.mp ⟨i', hi', ?_, hcopy⟩)
      exact (Option.some.inj hop).symm
    | some x =>
      have hv : (afterUpgrade cfg w.db s p salt).identities = w.db.identities := rfl
      have hre : (Op.upgradeLogin s p stored salt).rewraps = some x := hp
      refine writeWrap_step hv (hw x hp) rfl hre hi' fun i _ _ hg u' hu' hid hk => ?_
      obtain ⟨rfl, -⟩ := writeWrap_ok (hw x hp)
      obtain ⟨u, hu, huid, -, hflag⟩ := setVerifier_user w.db hu' hid
      exact ⟨hg, u, hu, huid, hflag ▸ hk⟩
  | recoverAccount userId p stored nextHash salt =>
    obtain ⟨-, rfl⟩ := recoverAccount_ok h
    exact stripped_step rfl hi'
  | resetPassword userId secret loginSalt iterations salt =>
    obtain rfl := resetPassword_ok h
    exact stripped_step rfl hi'
  | _ =>
    rw [show db'.identities = w.db.identities from tx_frame h (t := .identities) (by simp [Op.touches])] at hi'
    exact .kept hi' fun hop => by cases hop

/-! ## Identity devices -/

/-- The account has this identity device. -/
def IsDevice (db : Db) (id : DeviceId) (userId : UserId) : Prop :=
  ∃ d ∈ db.devices, d.id = id ∧ d.userId = userId ∧ d.platform = identityPlatform

/-- The account has a row for this identity. -/
def IsRow (db : Db) (id : DeviceId) (userId : UserId) : Prop :=
  ∃ i ∈ db.identities, i.deviceId = id ∧ i.userId = userId

/-- Every identity row has its device, and every identity device its row. -/
def Paired (db : Db) : Prop := ∀ id userId, IsDevice db id userId ↔ IsRow db id userId

/-- The identity devices are the same. -/
def SameDevices (db db' : Db) : Prop := ∀ id userId, IsDevice db' id userId ↔ IsDevice db id userId

/-- The identity rows are of the same identities. -/
def SameRows (db db' : Db) : Prop := ∀ id userId, IsRow db' id userId ↔ IsRow db id userId

theorem SameDevices.of_devices (h : db'.devices = db.devices) : SameDevices db db' := by
  intro id userId
  unfold IsDevice
  rw [h]

theorem SameDevices.trans {a b c : Db} (h₁ : SameDevices a b) (h₂ : SameDevices b c) : SameDevices a c :=
  fun id userId => (h₂ id userId).trans (h₁ id userId)

theorem SameDevices.revokeDevices {p : Device → Prop} [DecidablePred p]
    (h : db'.devices = (revokeDevices db p now).devices) : SameDevices db db' := by
  intro id userId
  unfold IsDevice
  rw [h]
  constructor
  · rintro ⟨d', hd', hid, hu, hp⟩
    rcases Table.mem_update_cases hd' with ⟨hd, -⟩ | ⟨d, hd, -, rfl⟩
    · exact ⟨d', hd, hid, hu, hp⟩
    · exact ⟨d, hd, hid, hu, hp⟩
  · rintro ⟨d, hd, hid, hu, hpl⟩
    by_cases hp : p d
    · exact ⟨_, Table.mem_update_of hd hp, hid, hu, hpl⟩
    · exact ⟨d, Table.mem_update_of_not hd hp, hid, hu, hpl⟩

/-- A registration writes no identity device. -/
theorem storeDevice_identities {c : PairingClaims} {g : Registration} {origin : Option SessionId} {id : DeviceId}
    {t : Table Device.id} (hg : g.platform ≠ identityPlatform) (h : storeDevice cfg db c g origin id = .ok t)
    {d : Device} (hp : d.platform = identityPlatform) : d ∈ t ↔ d ∈ db.devices := by
  simp only [storeDevice] at h
  split at h
  · rename_i old hold
    cases h
    have hpo := List.find?_some hold
    simp only [decide_eq_true_eq] at hpo
    constructor
    · intro hd
      rcases Table.mem_update_cases hd with ⟨hm, -⟩ | ⟨x, -, -, rfl⟩
      · exact hm
      · exact absurd hp hg
    · intro hm
      refine Table.mem_update_of_not hm fun hid => ?_
      have heq : d = old := Table.eq_of_key hm (List.mem_of_find?_eq_some hold) hid
      exact hpo.2.2 (heq ▸ hp)
  · simp only [bind_ok, require_ok, fetch_ok] at h
    obtain ⟨-, -, h⟩ := h
    constructor
    · intro hd
      rcases (Table.mem_insert h).mp hd with hm | rfl
      · exact hm
      · exact absurd hp hg
    · exact fun hm => (Table.mem_insert h).mpr (Or.inl hm)

theorem register_devices {c : PairingClaims} {g : Registration} {seen : Time}
    (h : tx cfg w (.register c g seen) = .ok db') : SameDevices w.db db' := by
  simp only [tx, bind_ok, require_ok] at h
  obtain ⟨-, -, h⟩ := h
  obtain ⟨hg, -, -, _, _, -, nonces, devices, -, hd, rfl⟩ := registerDevice_ok h
  intro id userId
  constructor
  · rintro ⟨d, hm, hid, hu, hp⟩
    exact ⟨d, (storeDevice_identities hg hd hp).mp hm, hid, hu, hp⟩
  · rintro ⟨d, hm, hid, hu, hp⟩
    exact ⟨d, (storeDevice_identities hg hd hp).mpr hm, hid, hu, hp⟩

theorem afterRoleChange_devices {u : DirectoryUser} {issuer : String} {x : User} :
    SameDevices db (afterRoleChange db u issuer x now) := by
  unfold afterRoleChange
  split
  · exact SameDevices.revokeDevices
      (p := fun d => d.userId = x.id ∧ d.platform ≠ identityPlatform ∧ d.revokedAt = none) rfl
  · exact SameDevices.of_devices rfl

theorem syncSingleUser_devices {issuer : String} {u : DirectoryUser} {active : Bool} {new : Fresh}
    (h : syncSingleUser cfg db issuer u active new now = .ok db') : SameDevices db db' := by
  rcases syncSingleUser_ok h with ⟨-, -, rfl⟩ | ⟨-, -, hi⟩ | ⟨x, -, -, -, -, rfl⟩
  · exact SameDevices.of_devices rfl
  · obtain ⟨-, t, -, rfl⟩ := insertUser_ok hi
    exact SameDevices.of_devices rfl
  · have key : SameDevices db (afterRoleChange db u issuer x now) := afterRoleChange_devices
    exact key.trans (SameDevices.of_devices rfl)

theorem deliver_devices {settings : Settings} {e : Delivery} {hash salt : String}
    (h : tx cfg w (.deliver settings e hash salt) = .ok db') : SameDevices w.db db' := by
  obtain ⟨⟨_, a⟩, hd, rfl⟩ := map_ok.mp h
  obtain ⟨revision, active, -, ⟨-, -, happ⟩ | ⟨-, -, rfl⟩⟩ := directoryRequest_ok hd
  · obtain ⟨db₁, h₁, rfl⟩ := applyDelivery_ok happ
    have hstate : SameDevices w.db (withState cfg (withSyncEvent cfg w.db e settings.ssoIssuerUrl w.clock) e
        settings.ssoIssuerUrl revision active w.clock) := SameDevices.of_devices rfl
    refine (hstate.trans (syncSingleUser_devices h₁)).trans ?_
    split
    · exact SameDevices.of_devices rfl
    · exact SameDevices.revokeDevices rfl
  · exact SameDevices.of_devices rfl

/-- The operation creates an identity. -/
def Op.creates : Op → Bool
  | .putIdentity .. => true
  | _ => false

theorem tx_devices (h : tx cfg w op = .ok db') (hop : op.creates = false) : SameDevices w.db db' := by
  cases op with
  | putIdentity s p unusable => cases hop
  | ssoLogout c clientId =>
    obtain ⟨-, -, t, -, rfl⟩ := applySSOLogout_ok.mp h
    exact SameDevices.revokeDevices rfl
  | deliver settings e hash salt => exact deliver_devices h
  | patchUser s id role status quotaBytes =>
    obtain ⟨-, -, u, -, -, rfl⟩ := patchUser_ok h
    simp only
    split
    · exact SameDevices.revokeDevices
        (p := fun d => d.userId = id ∧ d.platform ≠ identityPlatform ∧ d.revokedAt = none) rfl
    · exact SameDevices.of_devices rfl
  | grantAdmin userId issuer subject =>
    obtain rfl := grantAdmin_ok h
    exact SameDevices.revokeDevices
      (p := fun d => d.userId = userId ∧ d.platform ≠ identityPlatform ∧ d.revokedAt = none) rfl
  | register c g seen => exact register_devices h
  | revokeDevice s id =>
    obtain rfl := revokeDevice_ok h
    exact SameDevices.revokeDevices rfl
  | changePassword s p stored confirmed salt =>
    have hdev : db'.devices = (afterChange cfg w.db s p salt w.clock).devices := by
      obtain ⟨-, hn, hw⟩ := changePassword_ok h
      cases hp : p.wrapped with
      | none => rw [(hn hp).2]
      | some x =>
        obtain ⟨_, _, -, hg⟩ := hw x hp
        rw [(writeWrap_ok hg).1]
    exact SameDevices.revokeDevices
      (p := fun d => d.userId = s.userId ∧ d.platform ≠ identityPlatform ∧ d.revokedAt = none) hdev
  | recoverAccount userId p stored nextHash salt =>
    obtain ⟨-, rfl⟩ := recoverAccount_ok h
    exact SameDevices.revokeDevices (p := fun d => d.userId = userId ∧ d.platform ≠ identityPlatform) rfl
  | resetPassword userId secret loginSalt iterations salt =>
    obtain rfl := resetPassword_ok h
    exact SameDevices.revokeDevices
      (p := fun d => d.userId = userId ∧ d.platform ≠ identityPlatform ∧ d.revokedAt = none) rfl
  | _ => exact SameDevices.of_devices (tx_frame h (t := .devices) (by simp [Op.touches]))

theorem SameRows.of_identities (h : db'.identities = db.identities) : SameRows db db' := by
  intro id userId
  unfold IsRow
  rw [h]

theorem SameRows.update {p : Identity → Prop} [DecidablePred p] {f : Identity → Identity}
    (h : db'.identities = db.identities.update p f)
    (hf : ∀ i, (f i).userId = i.userId ∧ (f i).deviceId = i.deviceId) : SameRows db db' := by
  have hkey : ∀ i, (f i).userId = i.userId := fun i => (hf i).1
  intro id userId
  unfold IsRow
  rw [h]
  constructor
  · rintro ⟨i', hi', hid, hu⟩
    rcases Table.mem_update_cases hi' hkey with ⟨hi, -⟩ | ⟨i, hi, -, rfl⟩
    · exact ⟨i', hi, hid, hu⟩
    · exact ⟨i, hi, (hf i).2.symm.trans hid, (hf i).1.symm.trans hu⟩
  · rintro ⟨i, hi, hid, hu⟩
    by_cases hp : p i
    · exact ⟨f i, Table.mem_update_of hi hp hkey, (hf i).2.trans hid, (hf i).1.trans hu⟩
    · exact ⟨i, Table.mem_update_of_not hi hp, hid, hu⟩

theorem SameRows.writeWrap {userId : UserId} {x : Bytes × DeviceId} {guard : Identity → Prop} [DecidablePred guard]
    {v : Db} (hv : v.identities = db.identities) (h : writeWrap v userId x guard = .ok db') : SameRows db db' := by
  obtain ⟨rfl, -⟩ := writeWrap_ok h
  refine SameRows.update (p := fun i => i.userId = userId ∧ i.deviceId = x.2 ∧ guard i)
    (f := fun i => i.rewrapped x.1) ?_ fun _ => ⟨rfl, rfl⟩
  rw [← hv]
  rfl

theorem tx_rows (h : tx cfg w op = .ok db') (hop : op.creates = false) : SameRows w.db db' := by
  cases op with
  | putIdentity s p unusable => cases hop
  | putRecovery s p =>
    obtain ⟨i, -, -, ⟨-, -, rfl⟩ | rfl⟩ := putRecovery_ok h
    · exact SameRows.of_identities rfl
    · exact SameRows.update (p := fun x => x.userId = s.userId ∧ x.recoveryId = i.recoveryId)
        (f := fun x => x.uploaded p.copy w.next) rfl fun _ => ⟨rfl, rfl⟩
  | changePassword s p stored confirmed salt =>
    obtain ⟨-, hn, hw⟩ := changePassword_ok h
    cases hp : p.wrapped with
    | none =>
      obtain ⟨-, rfl⟩ := hn hp
      exact SameRows.of_identities rfl
    | some x =>
      obtain ⟨_, _, -, hg⟩ := hw x hp
      have hv : (afterChange cfg w.db s p salt w.clock).identities = w.db.identities := rfl
      exact SameRows.writeWrap hv hg
  | upgradeLogin s p stored salt =>
    obtain ⟨-, -, hn, hw⟩ := upgradeLogin_ok h
    cases hp : p.wrapped with
    | none =>
      obtain rfl := hn hp
      exact SameRows.of_identities rfl
    | some x =>
      have hv : (afterUpgrade cfg w.db s p salt).identities = w.db.identities := rfl
      exact SameRows.writeWrap hv (hw x hp)
  | recoverAccount userId p stored nextHash salt =>
    obtain ⟨-, rfl⟩ := recoverAccount_ok h
    exact SameRows.update (p := fun i => i.userId = userId ∧ i.wrapAlg = identityWrapAlg) (f := Identity.stripped) rfl
      fun _ => ⟨rfl, rfl⟩
  | resetPassword userId secret loginSalt iterations salt =>
    obtain rfl := resetPassword_ok h
    exact SameRows.update (p := fun i => i.userId = userId ∧ i.wrapAlg = identityWrapAlg) (f := Identity.stripped) rfl
      fun _ => ⟨rfl, rfl⟩
  | _ => exact SameRows.of_identities (tx_frame h (t := .identities) (by simp [Op.touches]))

theorem Paired.same (hp : Paired db) (hd : SameDevices db db') (hr : SameRows db db') : Paired db' :=
  fun id userId => (hd id userId).trans ((hp id userId).trans (hr id userId).symm)

/-- `deleteIdentityTx` removes the identity of the account, device and row. -/
theorem Paired.deleteIdentity (hp : Paired db) (owner : UserId) : Paired (deleteIdentity db owner) := by
  intro id userId
  constructor
  · rintro ⟨d, hd, hid, hu, hpl⟩
    obtain ⟨hd, hne⟩ := Table.mem_delete.mp hd
    obtain ⟨i, hi, hii, hiu⟩ := (hp id userId).mp ⟨d, hd, hid, hu, hpl⟩
    refine ⟨i, Table.mem_delete.mpr ⟨hi, ?_⟩, hii, hiu⟩
    rintro ⟨x, hx, hxid, hxu, hxp⟩
    have hxd : x = d := Table.eq_of_key hx hd (hxid.trans (hii.trans hid.symm))
    exact hne ⟨hxd ▸ hxu, hpl⟩
  · rintro ⟨i, hi, hii, hiu⟩
    obtain ⟨hi, hne⟩ := Table.mem_delete.mp hi
    obtain ⟨d, hd, hid, hu, hpl⟩ := (hp id userId).mpr ⟨i, hi, hii, hiu⟩
    refine ⟨d, Table.mem_delete.mpr ⟨hd, fun hx => hne ?_⟩, hid, hu, hpl⟩
    exact ⟨d, hd, hid.trans hii.symm, hx.1, hx.2⟩

theorem Paired.afterReset {s : Session} (hp : Paired db) : Paired (afterReset db s now) := by
  have hrev : SameDevices db (Auth.revokeDevices
      (Auth.revokeSessions db (fun r => r.userId = s.userId ∧ r.id ≠ s.id ∧ r.revokedAt = none) now)
      (fun d => d.userId = s.userId ∧ d.platform ≠ identityPlatform ∧ d.revokedAt = none) now) :=
    SameDevices.revokeDevices rfl
  have hdel := (hp.same hrev (SameRows.of_identities rfl)).deleteIdentity s.userId
  exact hdel.same (SameDevices.of_devices rfl) (SameRows.of_identities rfl)

theorem Paired.insertIdentity {s : Session} {p : IdentityPut} {fp : Digest} {deviceId : DeviceId}
    {recoveryId : RecoveryId} {unusable : String} (hp : Paired db)
    (h : insertIdentity db s p fp deviceId recoveryId unusable = .ok db') : Paired db' := by
  obtain ⟨-, -, devices, identities, hd, hi, rfl⟩ := insertIdentity_ok h
  intro id userId
  constructor
  · rintro ⟨d, hm, hid, hu, hpl⟩
    rcases (Table.mem_insert hd).mp hm with hm | rfl
    · obtain ⟨i, him, hii, hiu⟩ := (hp id userId).mp ⟨d, hm, hid, hu, hpl⟩
      exact ⟨i, (Table.mem_insert hi).mpr (Or.inl him), hii, hiu⟩
    · exact ⟨newIdentity s p deviceId recoveryId, (Table.mem_insert hi).mpr (Or.inr rfl), hid, hu⟩
  · rintro ⟨i, hm, hii, hiu⟩
    rcases (Table.mem_insert hi).mp hm with hm | rfl
    · obtain ⟨d, hdm, hid, hu, hpl⟩ := (hp id userId).mpr ⟨i, hm, hii, hiu⟩
      exact ⟨d, (Table.mem_insert hd).mpr (Or.inl hdm), hid, hu, hpl⟩
    · exact ⟨newIdentityDevice s p fp deviceId unusable, (Table.mem_insert hd).mpr (Or.inr rfl), hii, hiu, rfl⟩

theorem tx_paired (h : tx cfg w op = .ok db') (hp : Paired w.db) : Paired db' := by
  by_cases hop : op.creates = true
  · cases op with
    | putIdentity s p unusable =>
      obtain ⟨-, -, db₁, hcase, hi⟩ := putIdentity_ok h
      rcases hcase with ⟨-, rfl⟩ | ⟨-, rfl⟩
      · exact hp.insertIdentity hi
      · exact hp.afterReset.insertIdentity hi
    | _ => cases hop
  · have hno : op.creates = false := by simpa using hop
    exact hp.same (tx_devices h hno) (tx_rows h hno)

end KyNotes.Auth
