import KyNotes.Auth.Copies

/-!
# Identity copies match their secrets

A login upgrade replaces the verifier without clearing the step-ups that proved the old one, as a password change does:
an identity that is created on such a step-up may have a copy under the old password key. `FreshCopy` says that a step
is no such creation.

* `Proved`: what a live step-up proved; `Supplied`: where a password copy comes from; `Uploaded`: where a recovery-code
  copy comes from.
* `Matched`: the invariant, and `step_matched`: every step with `FreshCopy` keeps it.
* `copies_match_secrets`: so it holds over every run of such steps; `stale_copy_stored`: and not over every run.
-/

namespace KyNotes.Auth

open Relational Check Transition

variable {cfg : Config} {db db' : Db} {log : List Entry} {w : World} {op : Op}

/-! ## Where a copy comes from -/

/-- The verifier that the operation stores. -/
def Op.verifier (cfg : Config) : Op → Option String
  | .changePassword _ p _ _ salt | .upgradeLogin _ p _ salt => some (cfg.hashAuthSecret p.newAuthSecret salt)
  | .recoverAccount _ p _ _ salt => some (cfg.hashAuthSecret p.newAuthSecret salt)
  | .resetPassword _ secret _ _ salt => some (cfg.hashAuthSecret secret salt)
  | _ => none

/-- `hash` is the account's current verifier, and no entry of `after` has stored a verifier for it. -/
structure Current (db : Db) (userId : UserId) (hash : String) (after : List Entry) : Prop where
  unstored : ∀ e ∈ after, e.op.stores ≠ some userId
  verifier : ∀ u ∈ db.users, u.id = userId → u.authSecretHash = hash

/-- The password copy was supplied in the transaction that stored the current verifier. -/
def StoredWith (cfg : Config) (db : Db) (log : List Entry) (i : Identity) : Prop :=
  ∃ before x after hash, log = before ++ x :: after ∧ x.op.stores = some i.userId ∧
    x.op.rewraps = some (i.wrappedPrivateKey, i.deviceId) ∧ x.op.verifier cfg = some hash ∧
    Current db i.userId hash after

/-- The password copy came with the identity, from a session whose step-up proved the current verifier. -/
def CreatedOn (cfg : Config) (db : Db) (log : List Entry) (i : Identity) : Prop :=
  ∃ before y between x after s secret stored s' p unusable, log = before ++ y :: (between ++ x :: after) ∧
    y.op = .stepUp s secret stored ∧ cfg.verifyAuthSecret secret stored = true ∧
    x.op = .putIdentity s' p unusable ∧ s.id = s'.id ∧ s'.userId = i.userId ∧ x.id = i.deviceId ∧
    p.wrappedPrivateKey = i.wrappedPrivateKey ∧ Current db i.userId stored (between ++ x :: after)

def Supplied (cfg : Config) (db : Db) (log : List Entry) (i : Identity) : Prop :=
  StoredWith cfg db log i ∨ CreatedOn cfg db log i

/-- The stored recovery-code copy was uploaded for the identity of the row: with it, or to it. -/
def Uploaded (log : List Entry) (i : Identity) : Prop :=
  ∃ x ∈ log, i.recoveryId = some x.id ∧
    ((∃ s p unusable c, x.op = .putIdentity s p unusable ∧ s.userId = i.userId ∧ x.id = i.deviceId ∧
        p.recovery = some c ∧ c.wrappedKey = i.recoveryWrappedKey) ∨
      ∃ s p, x.op = .putRecovery s p ∧ s.userId = i.userId ∧ p.deviceId = i.deviceId ∧
        p.copy.wrappedKey = i.recoveryWrappedKey)

/-- The last step-up of the session is in the log, and since then its account's verifier was only upgraded; where it was
not, the step-up proved the current one. -/
def Proved (cfg : Config) (db : Db) (log : List Entry) (r : SessionRow) : Prop :=
  ∃ before y after s secret stored, log = before ++ y :: after ∧ y.op = .stepUp s secret stored ∧ s.id = r.id ∧
    cfg.verifyAuthSecret secret stored = true ∧ (∀ e ∈ after, e.op.proves ≠ some r.id) ∧
    (∀ e ∈ after, e.op.stores = some r.userId → e.op.upgrades = some r.userId) ∧
    ((∀ e ∈ after, e.op.stores ≠ some r.userId) → Current db r.userId stored after)

/-! ## The condition -/

/-- Every login upgrade of the account in the log came before a step-up of the session. -/
def StepUpSince (s : Session) : List Entry → Prop
  | [] => True
  | e :: later => (e.op.upgrades = some s.userId → ∃ z ∈ later, z.op.proves = some s.id) ∧ StepUpSince s later

instance StepUpSince.decidable (s : Session) : ∀ log, Decidable (StepUpSince s log)
  | [] => .isTrue trivial
  | _ :: later => @instDecidableAnd _ _ _ (StepUpSince.decidable s later)

theorem StepUpSince.of_append {s : Session} : ∀ {before : List Entry} {e : Entry} {after : List Entry},
    StepUpSince s (before ++ e :: after) → e.op.upgrades = some s.userId → ∃ z ∈ after, z.op.proves = some s.id
  | [], _, _, h => h.1
  | _ :: _, _, _, h => StepUpSince.of_append h.2

/-- The step creates no identity with a password copy on a step-up that is older than the account's last upgrade. -/
def FreshCopy (x : World × List Entry) : Op → Prop
  | .putIdentity s p _ => p.wrapAlg = identityWrapAlg → StepUpSince s x.2
  | _ => True

instance (x : World × List Entry) : ∀ op, Decidable (FreshCopy x op)
  | .putIdentity s p _ => inferInstanceAs (Decidable (p.wrapAlg = identityWrapAlg → StepUpSince s x.2))
  | .tick _ | .saveSettings .. | .createAccount _ | .login .. | .ssoLogin .. | .extendSession .. | .stepUp ..
  | .revokeSession _ | .logoutAll _ | .collectSessions | .ssoLogout .. | .requireSSOStepUp .. | .beginSSOStepUp ..
  | .cancelSSOStepUp .. | .completeSSOStepUp .. | .consumeSSOStepUp .. | .deliver .. | .patchUser .. | .grantAdmin ..
  | .mintPairing .. | .register .. | .revokeDevice .. | .putRecovery .. | .changePassword .. | .upgradeLogin ..
  | .recoverAccount .. | .resetPassword .. => .isTrue trivial

/-! ## One commit -/

/-- A verifier that an operation does not replace stays current. -/
theorem Current.append {userId : UserId} {hash : String} {after : List Entry} (hc : Current w.db userId hash after)
    (h : tx cfg w op = .ok db') (hst : op.stores ≠ some userId) (hlt : userId < w.next) :
    Current db' userId hash (after ++ [⟨w.clock, w.next, op⟩]) where
  unstored e he := by
    rcases List.mem_append.mp he with he | he
    · exact hc.unstored e he
    · rw [List.mem_singleton.mp he]
      exact hst
  verifier u' hu' hid := by
    rcases tx_secrets h u' hu' with hnew | ⟨u, hu, huid, hkeep⟩
    · exact absurd (hid.symm.trans hnew) (Nat.ne_of_lt hlt)
    · rw [(hkeep (by rw [hid]; exact hst)).1]
      exact hc.verifier u hu (huid.trans hid)

theorem verifier_of_stores (cfg : Config) {userId : UserId} (h : op.stores = some userId) : ∃ hash, op.verifier cfg = some hash := by
  cases op <;> first | exact ⟨_, rfl⟩ | cases h

/-- A stored verifier is the one that the operation computes. -/
theorem tx_verifier (h : tx cfg w op = .ok db') {userId : UserId} (hst : op.stores = some userId) {u' : User}
    (hu' : u' ∈ db'.users) (hid : u'.id = userId) : op.verifier cfg = some u'.authSecretHash := by
  cases op with
  | changePassword s p stored confirmed salt =>
    cases hst
    have husers : db'.users = (afterChange cfg w.db s p salt w.clock).users := by
      obtain ⟨-, hn, hw⟩ := changePassword_ok h
      cases hp : p.wrapped with
      | none => rw [(hn hp).2]
      | some x =>
        obtain ⟨_, _, -, hg⟩ := hw x hp
        rw [(writeWrap_ok hg).1]
    rw [husers] at hu'
    obtain ⟨-, -, -, hhash, -⟩ := setVerifier_user w.db hu' hid
    exact congrArg some hhash.symm
  | upgradeLogin s p stored salt =>
    cases hst
    have husers : db'.users = (afterUpgrade cfg w.db s p salt).users := by
      obtain ⟨-, -, hn, hw⟩ := upgradeLogin_ok h
      cases hp : p.wrapped with
      | none => rw [hn hp]
      | some x => rw [(writeWrap_ok (hw x hp)).1]
    rw [husers] at hu'
    obtain ⟨-, -, -, hhash, -⟩ := setVerifier_user w.db hu' hid
    exact congrArg some hhash.symm
  | recoverAccount userId p stored nextHash salt =>
    cases hst
    obtain ⟨-, rfl⟩ := recoverAccount_ok h
    obtain ⟨-, -, -, hhash, -⟩ := setVerifier_user w.db hu' hid
    exact congrArg some hhash.symm
  | resetPassword userId secret loginSalt iterations salt =>
    cases hst
    obtain rfl := resetPassword_ok h
    obtain ⟨-, -, -, hhash, -⟩ := setVerifier_user w.db hu' hid
    exact congrArg some hhash.symm
  | _ => cases hst

/-! ## The invariant -/

structure Matched (cfg : Config) (x : World × List Entry) : Prop where
  accounts : Accounts x.1.db
  bound : ∀ u ∈ x.1.db.users, u.id < x.1.next
  paired : Paired x.1.db
  adminKnown : ∀ u ∈ x.1.db.users, u.passwordAdminKnown = true → ¬hasPasswordCopy x.1.db u.id
  proved : ∀ r ∈ x.1.db.sessions, r.revokedAt = none → r.stepupAt ≠ none → Proved cfg x.1.db x.2 r
  supplied : ∀ i ∈ x.1.db.identities, i.hasPasswordCopy → Supplied cfg x.1.db x.2 i
  uploaded : ∀ i ∈ x.1.db.identities, i.recoveryId ≠ none → Uploaded x.2 i

theorem Matched.session_lt (hx : Matched cfg (w, log)) {r : SessionRow} (hr : r ∈ w.db.sessions) : r.userId < w.next := by
  obtain ⟨u, hu, hid⟩ := hx.accounts.sessionOwner r hr
  exact hid ▸ hx.bound u hu

theorem Matched.identity_lt (hx : Matched cfg (w, log)) {i : Identity} (hi : i ∈ w.db.identities) :
    i.userId < w.next := by
  obtain ⟨d, hd, -, hdu, -⟩ := (hx.paired i.deviceId i.userId).mpr ⟨i, hi, rfl, rfl⟩
  obtain ⟨u, hu, hid⟩ := hx.accounts.deviceOwner d hd
  exact (hid.trans hdu) ▸ hx.bound u hu

/-- Where every upgrade came before the session's last step-up, that step-up proved the current verifier. -/
theorem Proved.current {r : SessionRow} {s : Session} (hp : Proved cfg db log r) (hid : s.id = r.id)
    (hu : s.userId = r.userId) (hsince : StepUpSince s log) :
    ∃ before y after s₀ secret stored, log = before ++ y :: after ∧ y.op = .stepUp s₀ secret stored ∧ s₀.id = r.id ∧
      cfg.verifyAuthSecret secret stored = true ∧ Current db r.userId stored after := by
  obtain ⟨before, y, after, s₀, secret, stored, rfl, hop, hs₀, hv, hlast, hupg, hcur⟩ := hp
  refine ⟨before, y, after, s₀, secret, stored, rfl, hop, hs₀, hv, hcur fun e he hst => ?_⟩
  -- an entry that stored a verifier was an upgrade, and a later step-up would be the last one
  obtain ⟨a, b, rfl⟩ := List.append_of_mem he
  have hsplit : before ++ y :: (a ++ e :: b) = (before ++ y :: a) ++ e :: b := by simp
  rw [hsplit] at hsince
  obtain ⟨z, hz, hzp⟩ := hsince.of_append (hu ▸ hupg e he hst)
  exact hlast z (by simp [hz]) (hid ▸ hzp)

theorem commit_proved (hx : Matched cfg (w, log)) (h : tx cfg w op = .ok db') {r' : SessionRow}
    (hr' : r' ∈ db'.sessions) (hlive : r'.revokedAt = none) (hstep : r'.stepupAt ≠ none) :
    Proved cfg db' (log ++ [⟨w.clock, w.next, op⟩]) r' := by
  cases tx_sessions h hr' with
  | off hoff => exact absurd (hoff hlive) hstep
  | kept r hr hid hu hs hl hop hnot =>
    obtain ⟨before, y, after, s, secret, stored, rfl, hyop, hsid, hv, hlast, hupg, hcur⟩ :=
      hx.proved r hr (hl hlive) (hs ▸ hstep)
    rw [hid] at hsid hlast
    have hlt : r'.userId < w.next := hu ▸ hx.session_lt hr
    rw [hu] at hupg hcur
    refine ⟨before, y, after ++ [⟨w.clock, w.next, op⟩], s, secret, stored, by simp, hyop, hsid, hv, ?_, ?_, ?_⟩
    · intro e he
      rcases List.mem_append.mp he with he | he
      · exact hlast e he
      · rw [List.mem_singleton.mp he]
        exact hnot
    · intro e he hst
      rcases List.mem_append.mp he with he | he
      · exact hupg e he hst
      · rw [List.mem_singleton.mp he] at hst ⊢
        exact hop hlive hst
    · intro hun
      refine (hcur fun e he => hun e (List.mem_append_left _ he)).append h ?_ hlt
      exact hun _ (List.mem_append_right _ (List.mem_singleton.mpr rfl))
  | proved s secret stored hop hid hu hv hcur =>
    obtain ⟨u₀, hu₀, hid₀, hh₀⟩ := hcur
    have hnow : Current w.db r'.userId stored [] := by
      refine ⟨fun e he => absurd he List.not_mem_nil, fun u hum huid => ?_⟩
      rw [← hh₀, Table.eq_of_key hum hu₀ (huid.trans hid₀.symm)]
    have hst : op.stores ≠ some r'.userId := by rw [hop]; exact nofun
    have hlt : r'.userId < w.next := hid₀ ▸ hx.bound u₀ hu₀
    have hafter := hnow.append h hst hlt
    refine ⟨log, _, [], s, secret, stored, rfl, hop, hid, hv, ?_, ?_, fun _ => ?_⟩
    · exact fun e he => absurd he List.not_mem_nil
    · exact fun e he => absurd he List.not_mem_nil
    · exact ⟨fun e he => absurd he List.not_mem_nil, hafter.verifier⟩

theorem Supplied.append {i : Identity} (hs : Supplied cfg w.db log i) (h : tx cfg w op = .ok db')
    (hst : op.stores ≠ some i.userId) (hlt : i.userId < w.next) :
    Supplied cfg db' (log ++ [⟨w.clock, w.next, op⟩]) i := by
  rcases hs with ⟨before, x, after, hash, rfl, hx⟩ | ⟨before, y, between, x, after, s, secret, stored, s', p, unusable, rfl, hx⟩
  · obtain ⟨hxs, hxr, hxv, hcur⟩ := hx
    exact Or.inl ⟨before, x, after ++ [_], hash, by simp, hxs, hxr, hxv, hcur.append h hst hlt⟩
  · obtain ⟨hy, hv, hx, hid, hu, hxi, hk, hcur⟩ := hx
    refine Or.inr ⟨before, y, between, x, after ++ [⟨w.clock, w.next, op⟩], s, secret, stored, s', p, unusable, by simp,
      hy, hv, hx, hid, hu, hxi, hk, ?_⟩
    have happ := hcur.append h hst hlt
    rwa [List.append_assoc, List.cons_append] at happ

theorem commit_supplied (hx : Matched cfg (w, log)) (hc : FreshCopy (w, log) op) (h : tx cfg w op = .ok db')
    {i' : Identity} (hi' : i' ∈ db'.identities) (hcopy : i'.hasPasswordCopy) :
    Supplied cfg db' (log ++ [⟨w.clock, w.next, op⟩]) i' := by
  cases tx_identities h hi' with
  | kept hi hop =>
    exact (hx.supplied i' hi hcopy).append h (fun hst => hop hst hcopy) (hx.identity_lt hi)
  | stripped i hi heq =>
    subst heq
    exact absurd hcopy deviceOnly_ne
  | uploaded i hi s p hop hu hd heq =>
    subst hop heq
    have hs : Supplied cfg w.db log i := hx.supplied i hi hcopy
    exact hs.append h nofun (hx.identity_lt hi)
  | created s p unusable hop hstep heq =>
    subst hop heq
    obtain ⟨r, u, hl, -, hraw, hsome, -⟩ := recheckUserStepUpTx_ok (hstep hcopy)
    obtain ⟨hr, hrid⟩ := Table.get_eq_some.mp hl.row
    have hproved := hx.proved r hr hl.unrevoked (hraw ▸ hsome)
    obtain ⟨before, y, after, s₀, secret, stored, rfl, hy, hs₀, hv, hcur⟩ :=
      hproved.current hrid.symm hl.user.symm (hc hcopy)
    have happ := hcur.append h nofun (hx.session_lt hr)
    rw [hl.user] at happ
    exact Or.inr ⟨before, y, after, ⟨w.clock, w.next, .putIdentity s p unusable⟩, [], s₀, secret, stored, s, p, unusable,
      by simp, hy, hv, rfl, hs₀.trans hrid, rfl, rfl, rfl, happ⟩
  | rewrapped i hi key hop hw heq hflag =>
    subst heq
    obtain ⟨hash, hv⟩ := verifier_of_stores cfg hop
    refine Or.inl ⟨log, ⟨w.clock, w.next, op⟩, [], hash, rfl, hop, hw, hv, ?_⟩
    refine ⟨fun e he => absurd he List.not_mem_nil, fun u' hu' hid => ?_⟩
    have hu := tx_verifier h hop hu' hid
    rw [hv] at hu
    exact (Option.some.inj hu).symm

theorem Uploaded.append {i : Identity} (h : Uploaded log i) (more : List Entry) : Uploaded (log ++ more) i := by
  obtain ⟨x, hx, hu⟩ := h
  exact ⟨x, List.mem_append_left more hx, hu⟩

theorem commit_uploaded (hx : Matched cfg (w, log)) (h : tx cfg w op = .ok db') {i' : Identity}
    (hi' : i' ∈ db'.identities) (hrec : i'.recoveryId ≠ none) : Uploaded (log ++ [⟨w.clock, w.next, op⟩]) i' := by
  have hlast : (⟨w.clock, w.next, op⟩ : Entry) ∈ log ++ [⟨w.clock, w.next, op⟩] :=
    List.mem_append_right _ (List.mem_singleton.mpr rfl)
  cases tx_identities h hi' with
  | kept hi hop => exact (hx.uploaded i' hi hrec).append _
  | stripped i hi heq =>
    subst heq
    have hu : Uploaded log i := hx.uploaded i hi hrec
    exact hu.append _
  | uploaded i hi s p hop hu hd heq =>
    subst hop heq
    exact ⟨_, hlast, rfl, Or.inr ⟨s, p, rfl, hu.symm, hd.symm, rfl⟩⟩
  | created s p unusable hop hstep heq =>
    subst hop heq
    cases hp : p.recovery with
    | none =>
      simp only [newIdentity, hp] at hrec
      exact absurd rfl hrec
    | some c =>
      refine ⟨_, hlast, ?_, Or.inl ⟨s, p, unusable, c, rfl, rfl, rfl, hp, ?_⟩⟩ <;> simp only [newIdentity, hp] <;> rfl
  | rewrapped i hi key hop hw heq hflag =>
    subst heq
    have hu : Uploaded log i := hx.uploaded i hi hrec
    exact hu.append _

theorem commit_adminKnown (hx : Matched cfg (w, log)) (h : tx cfg w op = .ok db') {u' : User} (hu' : u' ∈ db'.users)
    (hk : u'.passwordAdminKnown = true) : ¬hasPasswordCopy db' u'.id := by
  rintro ⟨i', hi', hiu, hcopy⟩
  -- an account that is flagged and was before had no copy
  have hbefore (hst : op.stores ≠ some u'.id) (hlt : u'.id < w.next) (i : Identity) (hi : i ∈ w.db.identities)
      (hid : i.userId = u'.id) (hcop : i.hasPasswordCopy) : False := by
    rcases tx_secrets h u' hu' with hnew | ⟨u, hu, huid, hkeep⟩
    · exact absurd hnew (Nat.ne_of_lt hlt)
    · refine hx.adminKnown u hu ?_ ⟨i, hi, hid.trans huid.symm, hcop⟩
      rw [← (hkeep hst).2]
      exact hk
  cases tx_identities h hi' with
  | kept hi hop =>
    exact hbefore (fun hst => hop (hiu ▸ hst) hcopy) (hiu ▸ hx.identity_lt hi) i' hi hiu hcopy
  | stripped i hi heq =>
    subst heq
    exact deviceOnly_ne hcopy
  | uploaded i hi s p hop hu hd heq =>
    subst hop heq
    have hid : i.userId = u'.id := hiu
    have hlt : i.userId < w.next := hx.identity_lt hi
    exact hbefore nofun (hid ▸ hlt) i hi hid hcopy
  | created s p unusable hop hstep heq =>
    subst hop heq
    obtain ⟨r, u, hl, -, -, -, hflag⟩ := recheckUserStepUpTx_ok (hstep hcopy)
    obtain ⟨hum, huid⟩ := Table.get_eq_some.mp hl.owner
    have hsu : s.userId = u'.id := hiu
    rcases tx_secrets h u' hu' with hnew | ⟨v, hv, hvid, hkeep⟩
    · have hlt := hx.bound u hum
      rw [huid, hl.user, hsu, hnew] at hlt
      exact Nat.lt_irrefl _ hlt
    · have huv : u = v := Table.eq_of_key hum hv (by rw [huid, hl.user, hsu, hvid])
      subst huv
      rw [← (hkeep nofun).2, hk] at hflag
      cases hflag
  | rewrapped i hi key hop hw heq hflag =>
    subst heq
    obtain ⟨hcop, u, hu, huid, hku⟩ := hflag u' hu' hiu.symm hk
    exact hx.adminKnown u hu hku ⟨i, hi, huid.symm, hcop⟩

theorem commit_matched (hx : Matched cfg (w, log)) (hc : FreshCopy (w, log) op) {v : World}
    (h : tx cfg w op = .ok v.db) (hv : v.next = w.next + 1) : Matched cfg (v, log ++ [⟨w.clock, w.next, op⟩]) where
  accounts := tx_accounts h hx.accounts
  bound u' hu' := by
    rw [hv]
    rcases tx_secrets h u' hu' with hnew | ⟨u, hu, hid, -⟩
    · exact hnew ▸ Nat.lt_succ_self _
    · exact hid ▸ Nat.lt_succ_of_lt (hx.bound u hu)
  paired := tx_paired h hx.paired
  adminKnown _ hu' hk := commit_adminKnown hx h hu' hk
  proved _ hr' hlive hstep := commit_proved hx h hr' hlive hstep
  supplied _ hi' hcopy := commit_supplied hx hc h hi' hcopy
  uploaded _ hi' hrec := commit_uploaded hx h hi' hrec

/-- Every step that creates no identity on an old step-up keeps the invariant. -/
theorem step_matched {x : World × List Entry} (hx : Matched cfg x) (hc : FreshCopy x op) :
    Matched cfg (logged (step cfg) (commits cfg) x op) := by
  obtain ⟨w, log⟩ := x
  simp only [logged]
  cases htx : tx cfg w op with
  | ok db' =>
    rw [commits_ok htx]
    exact commit_matched hx hc (htx.trans (congrArg Except.ok (step_ok htx).symm)) rfl
  | error e =>
    rw [commits_error htx, List.append_nil]
    have hdb : (step cfg w op).db = w.db := step_error htx
    exact ⟨by rw [hdb]; exact hx.accounts, by rw [hdb]; exact fun u hu => Nat.lt_succ_of_lt (hx.bound u hu),
      by rw [hdb]; exact hx.paired, by rw [hdb]; exact hx.adminKnown, by rw [hdb]; exact hx.proved,
      by rw [hdb]; exact hx.supplied, by rw [hdb]; exact hx.uploaded⟩

theorem init_matched (cfg : Config) : Matched cfg (.init, []) where
  accounts := init_accounts
  bound _ hu := absurd hu List.not_mem_nil
  paired id userId := by
    constructor
    · rintro ⟨d, hd, -⟩
      exact absurd hd List.not_mem_nil
    · rintro ⟨i, hi, -⟩
      exact absurd hi List.not_mem_nil
  adminKnown _ hu := absurd hu List.not_mem_nil
  proved _ hr := absurd hr List.not_mem_nil
  supplied _ hi := absurd hi List.not_mem_nil
  uploaded _ hi := absurd hi List.not_mem_nil

/-! ## Every run -/

/-- What the claim asks of a state and its history: an account has one identity at most, a row and its device; a password
copy was supplied with the current verifier or on a step-up that proved it; an account whose password an administrator
knows has none; a recovery-code copy was uploaded for the row's identity. -/
structure CopiesMatch (cfg : Config) (db : Db) (log : List Entry) : Prop where
  oneRow : ∀ i ∈ db.identities, ∀ j ∈ db.identities, i.userId = j.userId → i = j
  oneDevice : ∀ d ∈ db.devices, ∀ d' ∈ db.devices, d.platform = identityPlatform → d'.platform = identityPlatform →
    d.userId = d'.userId → d = d'
  paired : Paired db
  supplied : ∀ i ∈ db.identities, i.hasPasswordCopy → Supplied cfg db log i
  adminKnown : ∀ u ∈ db.users, u.passwordAdminKnown = true → ¬hasPasswordCopy db u.id
  uploaded : ∀ i ∈ db.identities, i.recoveryId ≠ none → Uploaded log i

theorem Paired.oneDevice (hp : Paired db) {d d' : Device} (hd : d ∈ db.devices) (hd' : d' ∈ db.devices)
    (h : d.platform = identityPlatform) (h' : d'.platform = identityPlatform) (hu : d.userId = d'.userId) : d = d' := by
  obtain ⟨i, hi, hid, hiu⟩ := (hp d.id d.userId).mp ⟨d, hd, rfl, rfl, h⟩
  obtain ⟨j, hj, hjd, hju⟩ := (hp d'.id d'.userId).mp ⟨d', hd', rfl, rfl, h'⟩
  have hij : i = j := Table.eq_of_key hi hj (hiu.trans (hu.trans hju.symm))
  exact Table.eq_of_key hd hd' (hid.symm.trans ((congrArg Identity.deviceId hij).trans hjd))

theorem Matched.copiesMatch {x : World × List Entry} (hx : Matched cfg x) : CopiesMatch cfg x.1.db x.2 where
  oneRow _ hi _ hj hu := Table.eq_of_key hi hj hu
  oneDevice _ hd _ hd' h h' hu := hx.paired.oneDevice hd hd' h h' hu
  paired := hx.paired
  supplied := hx.supplied
  adminKnown := hx.adminKnown
  uploaded := hx.uploaded

/-- In every run in which no identity is created with a password copy on a step-up that is older than the account's last
login upgrade, the copies match their secrets in every state reached. -/
theorem copies_match_secrets (cfg : Config) (ops : List Op)
    (h : Along (logged (step cfg) (commits cfg)) FreshCopy (.init, []) ops) :
    ∀ before, before <+: ops → CopiesMatch cfg (reach cfg .init before).db (history cfg .init before) := by
  rintro before ⟨after, rfl⟩
  have hm : Matched cfg (recorded cfg .init before) :=
    run_inv_of (fun _ _ => step_matched) (along_append.mp h).1 (init_matched cfg)
  have hc := hm.copiesMatch
  rwa [recorded_fst] at hc

/-- A password secret as a browser sends it. -/
def secretOf (c : Char) : String := String.ofList (List.replicate 64 c)

/-- Ada signs in and steps up. -/
def adaOps : List Op :=
  [.createAccount (localAccount 0 "ada" (secretOf 'a') .user .user), .login 0 (secretOf 'a') (secretOf 'a') 0,
    .stepUp (sessionOf 1 (localAccount 0 "ada" (secretOf 'a') .user .user)) (secretOf 'a') (secretOf 'a')]

/-- Her session after the step-up, as the middleware reads it while the verifier is `hash`. -/
def adaSession (hash : String) : Session :=
  { sessionOf 1 (localAccount 0 "ada" hash .user .user) with stepUpRaw := some 0 }

/-- A new identity with a password copy. -/
def adaIdentity : IdentityPut :=
  { publicKey := List.replicate 32 0, wrapAlg := identityWrapAlg, wrappedPrivateKey := List.replicate 60 1,
    replace := false, expectedDeviceId := none, recovery := none }

/-- Ada creates her identity on the step-up. -/
theorem copies_match_secrets_ada :
    CopiesMatch plainConfig
      (reach plainConfig .init (adaOps ++ [.putIdentity (adaSession (secretOf 'a')) adaIdentity "x"])).db
      (history plainConfig .init (adaOps ++ [.putIdentity (adaSession (secretOf 'a')) adaIdentity "x"])) :=
  copies_match_secrets plainConfig _ (by decide +kernel) _ (List.prefix_refl _)

/-- Another tab of Ada's upgrades the login between the step-up and the creation. -/
def staleOps : List Op :=
  adaOps ++ [.upgradeLogin (adaSession (secretOf 'a')) ⟨secretOf 'a', secretOf 'b', "salt", 600000, none⟩ (secretOf 'a') 0,
    .putIdentity (adaSession (secretOf 'b')) adaIdentity "x"]

/-- The step-up of a history that proved another verifier than `hash`. -/
def Entry.provesOther (hash : String) (x : Entry) : Bool :=
  match x.op with
  | .stepUp _ _ stored => stored ≠ hash
  | _ => true

/-- Her copy is stored under a password key that the current verifier does not belong to. -/
theorem stale_copy_stored :
    ¬CopiesMatch plainConfig (reach plainConfig .init staleOps).db (history plainConfig .init staleOps) := by
  intro h
  have hrewraps : ∀ x ∈ history plainConfig .init staleOps, x.op.rewraps = none := by decide +kernel
  have hproves : ∀ x ∈ history plainConfig .init staleOps, x.provesOther (secretOf 'b') = true := by decide +kernel
  have hrow : ∃ i ∈ (reach plainConfig .init staleOps).db.identities, i.hasPasswordCopy ∧
      ∃ u ∈ (reach plainConfig .init staleOps).db.users, u.id = i.userId ∧ u.authSecretHash = secretOf 'b' := by
    decide +kernel
  obtain ⟨i, hi, hcopy, u, hu, hid, hhash⟩ := hrow
  rcases h.supplied i hi hcopy with ⟨_, x, _, _, hlog, -, hx, -⟩ | ⟨_, y, _, _, _, _, _, stored, _, _, _, hlog, hy, hrest⟩
  · rw [hrewraps x (by rw [hlog]; simp)] at hx
    cases hx
  · have hother := hproves y (by rw [hlog]; simp)
    simp only [Entry.provesOther, hy, decide_eq_true_eq] at hother
    have hcur := hrest.2.2.2.2.2.2
    exact hother ((hcur.verifier u hu hid).symm.trans hhash)

end KyNotes.Auth
