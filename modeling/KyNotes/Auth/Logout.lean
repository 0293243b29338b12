import KyNotes.Auth.Effects

/-!
# SSO logout and login commute

* `covers_iff`, `refuses_iff`: the predicate that ends sessions and the fence that refuses logins have one scope.
* `get_session_logout`: what a logout does to each session.
* `event_kept`: its fence stays while a login that began before it can commit.
* `login_refused`, `login_unaffected`: a covered login is refused, an uncovered one has the verdict that it would have
  without the fence.
* `logout_login_commute`: so either order of the two commits leaves the same outcome.
-/

namespace KyNotes.Auth

open Relational Check Transition

variable {cfg : Config} {db db' : Db} {now : Time}

/-- The scope of a logout over logins: the session that it names, or every login of its subject that is not younger,
where the logout or the login names no session. -/
def LogoutClaims.coversLogin (c : LogoutClaims) (clientId : String) (i : SSOIdentity) : Prop :=
  i.issuer = c.issuer ∧ i.clientId = clientId ∧
  ((c.sessionId ≠ "" ∧ i.sessionId = c.sessionId ∧ (c.subject = "" ∨ i.subject = c.subject)) ∨
   ((c.sessionId = "" ∨ i.sessionId = "" ∧ c.subject ≠ "") ∧ i.subject = c.subject ∧ i.issuedAt ≤ c.issuedAt))

instance (c : LogoutClaims) (clientId : String) (i : SSOIdentity) : Decidable (c.coversLogin clientId i) :=
  inferInstanceAs (Decidable (_ ∧ _ ∧ _))

/-- The predicate over sessions has that scope. -/
theorem covers_iff (c : LogoutClaims) (clientId : String) (i : SSOIdentity) (id : SessionId) (userId : UserId)
    (prepared : Time) : c.covers clientId (ssoSession id userId i prepared) ↔ c.coversLogin clientId i := by
  unfold LogoutClaims.covers LogoutClaims.coversLogin
  constructor
  · rintro ⟨hi, hc, h | ⟨hs, hn, hu, ht⟩ | ⟨hn, hu, ht⟩⟩
    · exact ⟨hi, hc, Or.inl h⟩
    · exact ⟨hi, hc, Or.inr ⟨Or.inr ⟨hn, hs⟩, hu, ht⟩⟩
    · exact ⟨hi, hc, Or.inr ⟨Or.inl hn, hu, ht⟩⟩
  · rintro ⟨hi, hc, h | ⟨hn | ⟨hn, hs⟩, hu, ht⟩⟩
    · exact ⟨hi, hc, Or.inl h⟩
    · exact ⟨hi, hc, Or.inr (Or.inr ⟨hn, hu, ht⟩)⟩
    · exact ⟨hi, hc, Or.inr (Or.inl ⟨hs, hn, hu, ht⟩)⟩

/-- The fence that a logout leaves refuses a login. -/
def LogoutEvent.refuses (e : LogoutEvent) (i : SSOIdentity) : Prop :=
  e.issuer = i.issuer ∧ e.clientId = i.clientId ∧ fences e i

/-- The predicate over fences has that scope. -/
theorem refuses_iff (c : LogoutClaims) (clientId : String) (i : SSOIdentity) (now : Time) :
    (c.event clientId now).refuses i ↔ c.coversLogin clientId i := by
  unfold LogoutEvent.refuses LogoutClaims.coversLogin fences
  constructor
  · rintro ⟨hi, hc, ⟨hs, he, hu⟩ | ⟨hn, hs, hu, ht⟩ | ⟨hn, hu, ht⟩⟩
    · exact ⟨hi.symm, hc.symm, Or.inl ⟨hs, he.symm, hu.imp_right Eq.symm⟩⟩
    · exact ⟨hi.symm, hc.symm, Or.inr ⟨Or.inr ⟨hn, hs⟩, hu.symm, ht⟩⟩
    · exact ⟨hi.symm, hc.symm, Or.inr ⟨Or.inl hn, hu.symm, ht⟩⟩
  · rintro ⟨hi, hc, ⟨hs, he, hu⟩ | ⟨hn | ⟨hn, hs⟩, hu, ht⟩⟩
    · exact ⟨hi.symm, hc.symm, Or.inl ⟨hs, he.symm, hu.imp_right Eq.symm⟩⟩
    · exact ⟨hi.symm, hc.symm, Or.inr (Or.inr ⟨hn, hu.symm, ht⟩)⟩
    · exact ⟨hi.symm, hc.symm, Or.inr (Or.inl ⟨hn, hs, hu.symm, ht⟩)⟩

/-! ## What a logout ends -/

/-- A session row after the logout. -/
def LogoutClaims.ends (c : LogoutClaims) (clientId : String) (now : Time) (r : SessionRow) : SessionRow :=
  if r.revokedAt = none ∧ c.covers clientId r then { r with revokedAt := some (format now) } else r

/-- A logout ends the live sessions of its scope and leaves every other session as it was. -/
theorem get_session_logout {c : LogoutClaims} {clientId : String} (h : applySSOLogout db c clientId now = .ok db')
    (id : SessionId) : db'.sessions.get id = (db.sessions.get id).map (c.ends clientId now) := by
  obtain ⟨-, -, t, -, rfl⟩ := applySSOLogout_ok.mp h
  exact Table.get_update id

/-- Live: stored and not revoked. -/
def LiveRow (db : Db) (id : SessionId) : Prop := ∃ r, db.sessions.get id = some r ∧ r.revokedAt = none

theorem live_logout {c : LogoutClaims} {clientId : String} (h : applySSOLogout db c clientId now = .ok db')
    (id : SessionId) : LiveRow db' id ↔ ∃ r, db.sessions.get id = some r ∧ r.revokedAt = none ∧ ¬c.covers clientId r := by
  unfold LiveRow
  rw [get_session_logout h]
  constructor
  · rintro ⟨r', hr', hlive⟩
    obtain ⟨r, hr, rfl⟩ := Option.map_eq_some_iff.mp hr'
    unfold LogoutClaims.ends at hlive
    split at hlive
    · cases hlive
    · rename_i hn
      exact ⟨r, hr, hlive, fun hc => hn ⟨hlive, hc⟩⟩
  · rintro ⟨r, hr, hlive, hnc⟩
    refine ⟨c.ends clientId now r, by rw [hr]; rfl, ?_⟩
    unfold LogoutClaims.ends
    rw [if_neg fun hp => hnc hp.2]
    exact hlive

/-! ## The fence is kept -/

theorem event_stored {c : LogoutClaims} {clientId : String} (h : applySSOLogout db c clientId now = .ok db') :
    c.event clientId now ∈ db'.logoutEvents := by
  obtain ⟨-, -, t, ht, rfl⟩ := applySSOLogout_ok.mp h
  exact (Table.mem_insert ht).mpr (Or.inr rfl)

/-- A fence outlives every transaction up to its last second. -/
theorem tx_event {w : World} {op : Op} (h : tx cfg w op = .ok db') {e : LogoutEvent} (he : e ∈ w.db.logoutEvents)
    (hr : format w.clock ≤ e.retainUntil) : e ∈ db'.logoutEvents := by
  by_cases hop : Tbl.logoutEvents ∈ op.touches
  · cases op with
    | ssoLogout c clientId =>
      obtain ⟨-, -, t, ht, rfl⟩ := applySSOLogout_ok.mp h
      exact (Table.mem_insert ht).mpr (Or.inl (Table.mem_delete.mpr ⟨he, Nat.not_lt.mpr hr⟩))
    | _ => simp [Op.touches] at hop
  · rw [show db'.logoutEvents = w.db.logoutEvents from tx_frame h hop]
    exact he

theorem format_mono {a b : Time} (h : a ≤ b) : format a ≤ format b := Nat.div_le_div_right h

theorem clock_le (cfg : Config) (w : World) (ops : List Op) : w.clock ≤ (reach cfg w ops).clock :=
  run_rel (P := fun _ : World => True) (R := fun v w : World => v.clock ≤ w.clock) (fun _ _ _ => trivial)
    (fun _ => Nat.le_refl _) (fun _ _ _ h₁ h₂ => Nat.le_trans h₁ h₂) (fun _ _ _ => Nat.le_add_right _ _) ops trivial

/-- Over every run: the fence is there while its last second has not passed. -/
theorem event_kept (cfg : Config) : ∀ (ops : List Op) (w : World) {e : LogoutEvent}, e ∈ w.db.logoutEvents →
    format (reach cfg w ops).clock ≤ e.retainUntil → e ∈ (reach cfg w ops).db.logoutEvents
  | [], _, _, he, _ => he
  | op :: ops, w, e, he, hr => by
    refine event_kept cfg ops (step cfg w op) ?_ hr
    have hw : w.clock ≤ (reach cfg w (op :: ops)).clock := clock_le cfg w (op :: ops)
    cases hx : tx cfg w op with
    | ok db' =>
      rw [step_ok hx]
      exact tx_event hx he (Nat.le_trans (format_mono hw) hr)
    | error err =>
      rw [step_error hx]
      exact he

/-! ## Logins after a logout -/

/-- A login that began before the logout cannot outlive the fence. -/
theorem retain_outlives (c : LogoutClaims) {began expires t : Time} (hb : began ≤ now)
    (he : expires ≤ began + ssoLoginLifetime) (ht : t < expires) : format t ≤ c.retain now := by
  unfold LogoutClaims.retain
  generalize ssoLoginLifetime = lifetime at he ⊢
  have h : t ≤ max (now + lifetime) c.replayUntil := by
    refine Nat.le_trans (Nat.le_of_lt ht) (Nat.le_trans he ?_)
    exact Nat.le_trans (Nat.add_le_add_right hb lifetime) (Nat.le_max_left _ _)
  exact Nat.le_succ_of_le (format_mono h)

/-- A covered login that began before the logout is refused, whatever happens in between. -/
theorem login_refused {w : World} {c : LogoutClaims} {clientId : String} {userId : UserId} {i : SSOIdentity}
    {prepared began : Time} (hlog : tx cfg w (.ssoLogout c clientId) = .ok db') (hb : began ≤ w.clock)
    (he : i.loginExpires ≤ began + ssoLoginLifetime) (hc : c.coversLogin clientId i) (between : List Op) :
    ∀ d, tx cfg (reach cfg (step cfg w (.ssoLogout c clientId)) between) (.ssoLogin userId i prepared) ≠ .ok d := by
  intro d hd
  obtain ⟨⟨-, -, -, hexp⟩, hcheck, -⟩ := mintSSOSession_ok.mp hd
  obtain ⟨-, hnf⟩ := checkSSOIdentityTx_ok hcheck
  have hret : format (reach cfg (step cfg w (.ssoLogout c clientId)) between).clock ≤ c.retain w.clock :=
    retain_outlives c hb he hexp
  have hev : c.event clientId w.clock ∈ (reach cfg (step cfg w (.ssoLogout c clientId)) between).db.logoutEvents := by
    refine event_kept cfg between _ ?_ hret
    rw [step_ok hlog]
    exact event_stored hlog
  obtain ⟨hi, hcl, hf⟩ := (refuses_iff c clientId i w.clock).mpr hc
  exact hnf ⟨_, hev, hi, hcl, hret, hf⟩

/-- A login has one verdict in two databases whose accounts, fences of the directory and settings agree, and that fence it
alike. -/
theorem checkSSOIdentityTx_congr {userId : UserId} {i : SSOIdentity} (hu : db'.users = db.users)
    (hd : db'.directory = db.directory) (hc : db'.cutoffs = db.cutoffs) (hs : db'.settings = db.settings)
    (hf : fenced db' i now ↔ fenced db i now) :
    checkSSOIdentityTx db' userId i now = .ok () ↔ checkSSOIdentityTx db userId i now = .ok () := by
  simp only [checkSSOIdentityTx, require_ok, hu, hd, hc, hs, hf]

/-- A logout fences no login that it does not cover, from its own clock on. -/
theorem fenced_logout {c : LogoutClaims} {clientId : String} {i : SSOIdentity} {t : Time}
    (h : applySSOLogout db c clientId now = .ok db') (hnc : ¬c.coversLogin clientId i) (ht : now ≤ t) :
    fenced db' i t ↔ fenced db i t := by
  obtain ⟨-, -, ev, hev, rfl⟩ := applySSOLogout_ok.mp h
  constructor
  · rintro ⟨e, he, hi, hc, hr, hf⟩
    rcases (Table.mem_insert hev).mp he with he | rfl
    · exact ⟨e, (Table.mem_delete.mp he).1, hi, hc, hr, hf⟩
    · exact absurd ((refuses_iff c clientId i now).mp ⟨hi, hc, hf⟩) hnc
  · rintro ⟨e, he, hi, hc, hr, hf⟩
    have hkeep : ¬e.retainUntil < format now := Nat.not_lt.mpr (Nat.le_trans (format_mono ht) hr)
    exact ⟨e, (Table.mem_insert hev).mpr (Or.inl (Table.mem_delete.mpr ⟨he, hkeep⟩)), hi, hc, hr, hf⟩

/-- An uncovered login is admitted after the logout exactly when it is without it. -/
theorem login_unaffected {c : LogoutClaims} {clientId : String} {userId : UserId} {i : SSOIdentity} {t : Time}
    (h : applySSOLogout db c clientId now = .ok db') (hnc : ¬c.coversLogin clientId i) (ht : now ≤ t) :
    checkSSOIdentityTx db' userId i t = .ok () ↔ checkSSOIdentityTx db userId i t = .ok () := by
  refine checkSSOIdentityTx_congr ?_ ?_ ?_ ?_ (fenced_logout h hnc ht) <;>
    · obtain ⟨-, -, _, -, rfl⟩ := applySSOLogout_ok.mp h
      rfl

/-- A key is free in an updated table when it is in the table. -/
theorem insert_after_logout {c : LogoutClaims} {clientId : String} (h : applySSOLogout db c clientId now = .ok db')
    (r : SessionRow) : (db'.sessions.insert r).isSome ↔ (db.sessions.insert r).isSome := by
  rw [Table.insert_isSome, Table.insert_isSome, get_session_logout h, Option.map_eq_none_iff]

theorem mint_isOk {id : SessionId} {userId : UserId} {i : SSOIdentity} {prepared : Time} :
    (∃ d, mintSSOSession db id userId i prepared now = .ok d) ↔
      (i.issuer ≠ "" ∧ i.clientId ≠ "" ∧ i.subject ≠ "" ∧ now < i.loginExpires) ∧
      checkSSOIdentityTx db userId i now = .ok () ∧ (db.sessions.insert (ssoSession id userId i prepared)).isSome := by
  constructor
  · rintro ⟨d, hd⟩
    obtain ⟨h₁, h₂, t, ht, -⟩ := mintSSOSession_ok.mp hd
    exact ⟨h₁, h₂, by rw [ht]; rfl⟩
  · rintro ⟨h₁, h₂, h₃⟩
    obtain ⟨t, ht⟩ := Option.isSome_iff_exists.mp h₃
    exact ⟨_, mintSSOSession_ok.mpr ⟨h₁, h₂, t, ht, rfl⟩⟩

/-- A login stores a live session. -/
theorem live_login {id : SessionId} {userId : UserId} {i : SSOIdentity} {prepared : Time}
    (h : mintSSOSession db id userId i prepared now = .ok db') :
    db'.sessions.get id = some (ssoSession id userId i prepared) := by
  obtain ⟨-, -, t, ht, rfl⟩ := mintSSOSession_ok.mp h
  have hg := Table.get_insert ht id
  rwa [if_pos (show (ssoSession id userId i prepared).id = id from rfl)] at hg

/-- Login first: the logout ends the session exactly when it covers the login. -/
theorem login_then_logout {id : SessionId} {userId : UserId} {i : SSOIdentity} {prepared t : Time} {db₁ db₂ : Db}
    {c : LogoutClaims} {clientId : String} (h₁ : mintSSOSession db id userId i prepared now = .ok db₁)
    (h₂ : applySSOLogout db₁ c clientId t = .ok db₂) : LiveRow db₂ id ↔ ¬c.coversLogin clientId i := by
  rw [live_logout h₂, live_login h₁]
  constructor
  · rintro ⟨r, hr, -, hnc⟩
    cases hr
    exact fun hc => hnc ((covers_iff c clientId i id userId prepared).mpr hc)
  · intro hnc
    exact ⟨_, rfl, rfl, fun hc => hnc ((covers_iff c clientId i id userId prepared).mp hc)⟩

/-- Logout first: an uncovered login that would be accepted without the logout stores a live session. -/
theorem logout_then_login {id : SessionId} {userId : UserId} {i : SSOIdentity} {prepared t : Time} {db₁ : Db}
    {c : LogoutClaims} {clientId : String} (h₁ : applySSOLogout db c clientId now = .ok db₁)
    (hnc : ¬c.coversLogin clientId i) (ht : now ≤ t) :
    (∃ db₂, mintSSOSession db₁ id userId i prepared t = .ok db₂ ∧ LiveRow db₂ id) ↔
      ∃ db₂, mintSSOSession db id userId i prepared t = .ok db₂ := by
  have hsame : (∃ db₂, mintSSOSession db₁ id userId i prepared t = .ok db₂) ↔
      ∃ db₂, mintSSOSession db id userId i prepared t = .ok db₂ := by
    rw [mint_isOk, mint_isOk, login_unaffected h₁ hnc ht, insert_after_logout h₁]
  rw [← hsame]
  constructor
  · rintro ⟨db₂, h₂, -⟩
    exact ⟨db₂, h₂⟩
  · rintro ⟨db₂, h₂⟩
    exact ⟨db₂, h₂, _, live_login h₂, rfl⟩

/-! ## Either order -/

/-- Both orders of a logout and a login, in any database. The login began no later than the logout and expires
`SSOLoginLifetime` after it began. The predicates over sessions and over fences have one scope; the logout ends the live
sessions of its scope and changes no other; its fence is kept, whatever is committed in between, as long as the login
can commit, and refuses it if it is covered. With the login first, its session is live after the logout exactly when it
is not covered; with the logout first, a login that would be accepted without it is accepted and stores a live session
exactly when it is not covered. -/
theorem logout_login_commute (cfg : Config) (w : World) (c : LogoutClaims) (clientId : String) (userId : UserId)
    (i : SSOIdentity) (prepared began : Time) (hb : began ≤ w.clock)
    (he : i.loginExpires ≤ began + ssoLoginLifetime) :
    (∀ id now, (c.covers clientId (ssoSession id userId i prepared) ↔ c.coversLogin clientId i) ∧
      ((c.event clientId now).refuses i ↔ c.coversLogin clientId i)) ∧
    (∀ db₁ d, tx cfg w (.ssoLogin userId i prepared) = .ok db₁ →
      ∀ db₂, tx cfg (reach cfg w [.ssoLogin userId i prepared, .tick d]) (.ssoLogout c clientId) = .ok db₂ →
        (LiveRow db₂ w.next ↔ ¬c.coversLogin clientId i)) ∧
    (∀ db₁, tx cfg w (.ssoLogout c clientId) = .ok db₁ →
      (∀ id, db₁.sessions.get id = (w.db.sessions.get id).map (c.ends clientId w.clock)) ∧
      (∀ between, let v := reach cfg (step cfg w (.ssoLogout c clientId)) between
        v.clock < i.loginExpires → c.event clientId w.clock ∈ v.db.logoutEvents) ∧
      (c.coversLogin clientId i → ∀ between db₂,
        tx cfg (reach cfg (step cfg w (.ssoLogout c clientId)) between) (.ssoLogin userId i prepared) ≠ .ok db₂) ∧
      ∀ d, (∃ db₂, tx cfg (reach cfg w [.tick 0, .tick d]) (.ssoLogin userId i prepared) = .ok db₂) →
        ((∃ db₂, tx cfg (reach cfg w [.ssoLogout c clientId, .tick d]) (.ssoLogin userId i prepared) = .ok db₂ ∧
          LiveRow db₂ (w.next + 2)) ↔ ¬c.coversLogin clientId i)) := by
  refine ⟨fun id now => ⟨covers_iff c clientId i id userId prepared, refuses_iff c clientId i now⟩, ?_, ?_⟩
  · intro db₁ d h₁ db₂ h₂
    have hdb : (reach cfg w [.ssoLogin userId i prepared, .tick d]).db = db₁ := step_ok h₁
    have hlog : applySSOLogout db₁ c clientId (w.clock + 0 + d) = .ok db₂ := by
      rw [← hdb]
      exact h₂
    exact login_then_logout h₁ hlog
  · intro db₁ h₁
    have hdb : (step cfg w (.ssoLogout c clientId)).db = db₁ := step_ok h₁
    refine ⟨get_session_logout h₁, ?_, fun hc between => login_refused h₁ hb he hc between, ?_⟩
    · intro between v hv
      refine event_kept cfg between _ ?_ (retain_outlives c hb he hv)
      rw [hdb]
      exact event_stored h₁
    · rintro d ⟨db₂, h₂⟩
      constructor
      · rintro ⟨db₃, h₃, -⟩ hc
        exact login_refused h₁ hb he hc [.tick d] db₃ h₃
      · intro hnc
        have hlater : w.clock ≤ w.clock + 0 + d := Nat.le_add_right _ _
        obtain ⟨db₃, h₃, hlive⟩ := (logout_then_login h₁ hnc hlater).mpr ⟨db₂, h₂⟩
        refine ⟨db₃, ?_, hlive⟩
        have hrun : (reach cfg w [.ssoLogout c clientId, .tick d]).db = db₁ := hdb
        show mintSSOSession (reach cfg w [.ssoLogout c clientId, .tick d]).db _ userId i prepared _ = .ok db₃
        rw [hrun]
        exact h₃

/-- Eve signs out at the provider. -/
def eveLogout : LogoutClaims :=
  { issuer := "https://idp", subject := "", sessionId := "sid", jwtId := "j", issuedAt := 0, replayUntil := second }

/-- Eve's login that is under way when she signs out is refused a minute later. -/
theorem logout_login_commute_eve :
    ¬∃ db₂, tx plainConfig (reach plainConfig (step plainConfig (reach plainConfig .init ssoOps)
      (.ssoLogout eveLogout "kynotes")) [.tick (60 * second)]) (.ssoLogin 1 (eveIdentity 0) 0) = .ok db₂ :=
  fun ⟨db₂, h⟩ =>
    ((logout_login_commute plainConfig (reach plainConfig .init ssoOps) eveLogout "kynotes" 1 (eveIdentity 0) 0 0
      (Nat.zero_le _) (Nat.le_refl _)).2.2 _ (tx_of_commits (by decide +kernel))).2.2.1 (by decide +kernel)
      [.tick (60 * second)] db₂ h

end KyNotes.Auth
