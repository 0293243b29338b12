import KyNotes.Auth.Effects

/-!
# Disabled accounts have no credentials

* `Accounts`: sessions and device credentials belong to accounts, an identity is that of one account, an account that
  the directory denies is disabled, and a disabled account has no live session and no live device credential.
* `Ends`: a transaction that only ends credentials and edits other columns keeps it (`Accounts.ends`).
* `tx_accounts`: every transaction keeps it, and `reach_accounts`: so every run does.
-/

namespace KyNotes.Auth

open Relational Check Transition

variable {cfg : Config} {db db' : Db} {now : Time}

/-- No live session and no live device credential. -/
structure Dismissed (db : Db) (id : UserId) : Prop where
  sessions : ∀ r ∈ db.sessions, r.userId = id → r.revokedAt ≠ none
  devices : ∀ d ∈ db.devices, d.platform ≠ identityPlatform → d.userId = id → d.revokedAt ≠ none

structure Accounts (db : Db) : Prop where
  sessionOwner : ∀ r ∈ db.sessions, ∃ u ∈ db.users, u.id = r.userId
  deviceOwner : ∀ d ∈ db.devices, ∃ u ∈ db.users, u.id = d.userId
  unique : ∀ u ∈ db.users, ∀ v ∈ db.users, u.ssoSubject ≠ "" → u.ssoIssuer = v.ssoIssuer →
    u.ssoSubject = v.ssoSubject → u = v
  named : ∀ d ∈ db.directory, d.subject ≠ ""
  denied : ∀ u ∈ db.users, directoryDenies db u.ssoIssuer u.ssoSubject → u.status = .disabled
  dismissed : ∀ u ∈ db.users, u.status = .disabled → Dismissed db u.id

/-! ## Transactions that only end credentials -/

/-- The accounts keep their identities and statuses; sessions and devices stay or end. -/
structure Ends (db db' : Db) : Prop where
  users : ∀ u' ∈ db'.users, ∃ u ∈ db.users, u.id = u'.id ∧ u.status = u'.status ∧ u.ssoIssuer = u'.ssoIssuer ∧
    u.ssoSubject = u'.ssoSubject
  kept : ∀ u ∈ db.users, ∃ u' ∈ db'.users, u'.id = u.id
  sessions : ∀ r' ∈ db'.sessions, ∃ r ∈ db.sessions, r.userId = r'.userId ∧ (r'.revokedAt = none → r.revokedAt = none)
  devices : ∀ d' ∈ db'.devices, ∃ d ∈ db.devices, d.userId = d'.userId ∧ d.platform = d'.platform ∧
    (d'.revokedAt = none → d.revokedAt = none)
  directory : db'.directory = db.directory

theorem Ends.refl (db : Db) : Ends db db :=
  ⟨fun u hu => ⟨u, hu, rfl, rfl, rfl, rfl⟩, fun u hu => ⟨u, hu, rfl⟩, fun r hr => ⟨r, hr, rfl, id⟩,
    fun d hd => ⟨d, hd, rfl, rfl, id⟩, rfl⟩

theorem Ends.trans {a b c : Db} (h₁ : Ends a b) (h₂ : Ends b c) : Ends a c where
  users u hu := by
    obtain ⟨v, hv, h⟩ := h₂.users u hu
    obtain ⟨x, hx, h'⟩ := h₁.users v hv
    exact ⟨x, hx, h'.1.trans h.1, h'.2.1.trans h.2.1, h'.2.2.1.trans h.2.2.1, h'.2.2.2.trans h.2.2.2⟩
  kept u hu := by
    obtain ⟨v, hv, h⟩ := h₁.kept u hu
    obtain ⟨x, hx, h'⟩ := h₂.kept v hv
    exact ⟨x, hx, h'.trans h⟩
  sessions r hr := by
    obtain ⟨s, hs, h, hl⟩ := h₂.sessions r hr
    obtain ⟨t, ht, h', hl'⟩ := h₁.sessions s hs
    exact ⟨t, ht, h'.trans h, fun hn => hl' (hl hn)⟩
  devices d hd := by
    obtain ⟨e, he, h, hp, hl⟩ := h₂.devices d hd
    obtain ⟨f, hf, h', hp', hl'⟩ := h₁.devices e he
    exact ⟨f, hf, h'.trans h, hp'.trans hp, fun hn => hl' (hl hn)⟩
  directory := h₂.directory.trans h₁.directory

/-- Tables that no account statement reads may change freely. -/
theorem Ends.of_same (hu : db'.users = db.users) (hs : db'.sessions = db.sessions) (hd : db'.devices = db.devices)
    (hr : db'.directory = db.directory) : Ends db db' where
  users := by rw [hu]; exact fun u h => ⟨u, h, rfl, rfl, rfl, rfl⟩
  kept := by rw [hu]; exact fun u h => ⟨u, h, rfl⟩
  sessions := by rw [hs]; exact fun r h => ⟨r, h, rfl, id⟩
  devices := by rw [hd]; exact fun d h => ⟨d, h, rfl, rfl, id⟩
  directory := hr

theorem Ends.users_update {p : User → Prop} [DecidablePred p] {f : User → User}
    (hf : ∀ u, (f u).id = u.id ∧ (f u).status = u.status ∧ (f u).ssoIssuer = u.ssoIssuer ∧
      (f u).ssoSubject = u.ssoSubject) : Ends db { db with users := db.users.update p f } where
  users u' hu' := by
    have hkey : ∀ u, (f u).id = u.id := fun u => (hf u).1
    rcases Table.mem_update_cases hu' hkey with ⟨hm, -⟩ | ⟨u, hm, -, rfl⟩
    · exact ⟨u', hm, rfl, rfl, rfl, rfl⟩
    · exact ⟨u, hm, (hf u).1.symm, (hf u).2.1.symm, (hf u).2.2.1.symm, (hf u).2.2.2.symm⟩
  kept u hu := by
    have hkey : ∀ u, (f u).id = u.id := fun u => (hf u).1
    by_cases hp : p u
    · exact ⟨f u, Table.mem_update_of hu hp hkey, (hf u).1⟩
    · exact ⟨u, Table.mem_update_of_not hu hp, rfl⟩
  sessions r hr := ⟨r, hr, rfl, id⟩
  devices d hd := ⟨d, hd, rfl, rfl, id⟩
  directory := rfl

theorem Ends.sessions_update {p : SessionRow → Prop} [DecidablePred p] {f : SessionRow → SessionRow}
    (hf : ∀ r, (f r).id = r.id ∧ (f r).userId = r.userId ∧ ((f r).revokedAt = none → r.revokedAt = none)) :
    Ends db { db with sessions := db.sessions.update p f } where
  users u hu := ⟨u, hu, rfl, rfl, rfl, rfl⟩
  kept u hu := ⟨u, hu, rfl⟩
  sessions r' hr' := by
    rcases Table.mem_update_cases hr' (fun r => (hf r).1) with ⟨hm, -⟩ | ⟨r, hm, -, rfl⟩
    · exact ⟨r', hm, rfl, id⟩
    · exact ⟨r, hm, (hf r).2.1.symm, (hf r).2.2⟩
  devices d hd := ⟨d, hd, rfl, rfl, id⟩
  directory := rfl

theorem Ends.revokeSessions {p : SessionRow → Prop} [DecidablePred p] : Ends db (revokeSessions db p now) :=
  Ends.sessions_update fun _ => ⟨rfl, rfl, nofun⟩

theorem Ends.revokeDevices {p : Device → Prop} [DecidablePred p] : Ends db (revokeDevices db p now) where
  users u hu := ⟨u, hu, rfl, rfl, rfl, rfl⟩
  kept u hu := ⟨u, hu, rfl⟩
  sessions r hr := ⟨r, hr, rfl, id⟩
  devices d' hd' := by
    rcases Table.mem_update_cases hd' with ⟨hm, -⟩ | ⟨d, hm, -, rfl⟩
    · exact ⟨d', hm, rfl, rfl, id⟩
    · exact ⟨d, hm, rfl, rfl, nofun⟩
  directory := rfl

theorem Ends.endCredentials {userId : UserId} : Ends db (endCredentials db userId now) :=
  Ends.revokeSessions.trans Ends.revokeDevices

theorem Ends.endIdentity {issuer subject : String} : Ends db (endIdentity db issuer subject now) :=
  Ends.revokeSessions.trans Ends.revokeDevices

theorem Ends.setVerifier {userId : UserId} {hash salt : String} {iterations : Nat} {known : User → Bool}
    {recovery : User → String} : Ends db (setVerifier db userId hash salt iterations known recovery) :=
  Ends.users_update fun _ => ⟨rfl, rfl, rfl, rfl⟩

theorem Ends.revokeForRoleChange {issuer subject : String} {userId : UserId} :
    Ends db (revokeForRoleChange db issuer subject userId now) := by
  have h : Ends db { db with
      cutoffs := db.cutoffs.upsert ⟨issuer, subject, format now⟩ fun c =>
        { c with revokedBefore := max c.revokedBefore (format now) } } := Ends.of_same rfl rfl rfl rfl
  exact h.trans Ends.endCredentials

theorem Ends.afterRoleChange {u : DirectoryUser} {issuer : String} {x : User} :
    Ends db (afterRoleChange db u issuer x now) := by
  unfold Auth.afterRoleChange
  split
  · exact Ends.revokeForRoleChange
  · exact Ends.refl db

theorem Ends.afterChange {s : Session} {p : PasswordPut} {salt : Nat} : Ends db (afterChange cfg db s p salt now) := by
  have h₁ : Ends (Auth.setVerifier db s.userId (cfg.hashAuthSecret p.newAuthSecret salt) p.newLoginSalt p.iterations
      (fun _ => false) User.recoveryHash) _ :=
    Ends.sessions_update (p := fun r => r.userId = s.userId) (f := fun r => { r with stepupAt := none })
      fun _ => ⟨rfl, rfl, id⟩
  exact ((Ends.setVerifier.trans h₁).trans Ends.revokeSessions).trans Ends.revokeDevices

theorem Dismissed.ends {id : UserId} (h : Ends db db') (hd : Dismissed db id) : Dismissed db' id where
  sessions r' hr' hid hn := by
    obtain ⟨r, hr, hu, hl⟩ := h.sessions r' hr'
    exact hd.sessions r hr (hu.trans hid) (hl hn)
  devices d' hd' hp hid hn := by
    obtain ⟨d, hm, hu, hpl, hl⟩ := h.devices d' hd'
    exact hd.devices d hm (hpl ▸ hp) (hu.trans hid) (hl hn)

theorem directoryDenies_congr (h : db'.directory = db.directory) {issuer subject : String} :
    directoryDenies db' issuer subject ↔ directoryDenies db issuer subject := by
  unfold directoryDenies
  rw [h]

/-- Ending credentials keeps the accounts in order. -/
theorem Accounts.ends (h : Ends db db') (ha : Accounts db) : Accounts db' where
  sessionOwner r' hr' := by
    obtain ⟨r, hr, hid, -⟩ := h.sessions r' hr'
    obtain ⟨u, hu, hui⟩ := ha.sessionOwner r hr
    obtain ⟨u', hu', hid'⟩ := h.kept u hu
    exact ⟨u', hu', hid'.trans (hui.trans hid)⟩
  deviceOwner d' hd' := by
    obtain ⟨d, hd, hid, -⟩ := h.devices d' hd'
    obtain ⟨u, hu, hui⟩ := ha.deviceOwner d hd
    obtain ⟨u', hu', hid'⟩ := h.kept u hu
    exact ⟨u', hu', hid'.trans (hui.trans hid)⟩
  unique u' hu' v' hv' hne hi hs := by
    obtain ⟨u, hu, h₁, -, hui, hus⟩ := h.users u' hu'
    obtain ⟨v, hv, h₂, -, hvi, hvs⟩ := h.users v' hv'
    have huv : u = v := ha.unique u hu v hv (by rw [hus]; exact hne) (hui.trans (hi.trans hvi.symm))
      (hus.trans (hs.trans hvs.symm))
    exact Table.eq_of_key hu' hv' (by rw [← h₁, huv, h₂])
  named := by rw [h.directory]; exact ha.named
  denied u' hu' hd := by
    obtain ⟨u, hu, -, hst, hi, hs⟩ := h.users u' hu'
    rw [← hst]
    exact ha.denied u hu (by rw [hi, hs]; exact (directoryDenies_congr h.directory).mp hd)
  dismissed u' hu' hst := by
    obtain ⟨u, hu, hid, hs, -⟩ := h.users u' hu'
    rw [← hid]
    exact (ha.dismissed u hu (hs.trans hst)).ends h

/-- Other tables may change freely. -/
theorem Accounts.same (ha : Accounts db) (hu : db'.users = db.users) (hs : db'.sessions = db.sessions)
    (hd : db'.devices = db.devices) (hr : db'.directory = db.directory) : Accounts db' :=
  ha.ends (Ends.of_same hu hs hd hr)

/-! ## Sessions and devices of active accounts -/

/-- A new session of an active account. -/
theorem Accounts.insertSession {r : SessionRow} {t : Table SessionRow.id} (ha : Accounts db)
    (hu : ∃ u ∈ db.users, u.id = r.userId ∧ u.status = .active) (ht : db.sessions.insert r = some t) :
    Accounts { db with sessions := t } where
  sessionOwner r' hr' := by
    rcases (Table.mem_insert ht).mp hr' with hr' | rfl
    · exact ha.sessionOwner r' hr'
    · obtain ⟨u, hm, hid, -⟩ := hu
      exact ⟨u, hm, hid⟩
  deviceOwner := ha.deviceOwner
  unique := ha.unique
  named := ha.named
  denied := ha.denied
  dismissed v hv hst := by
    refine ⟨fun r' hr' hid => ?_, (ha.dismissed v hv hst).devices⟩
    rcases (Table.mem_insert ht).mp hr' with hr' | rfl
    · exact (ha.dismissed v hv hst).sessions r' hr' hid
    · obtain ⟨u, hm, hui, hact⟩ := hu
      have : u = v := Table.eq_of_key hm hv (hui.trans hid)
      rw [this, hst] at hact
      cases hact

/-- Device rows that are new or live again belong to an active account or are identities. -/
theorem Accounts.devices {t : Table Device.id} (ha : Accounts db)
    (ht : ∀ d' ∈ t, d' ∈ db.devices ∨ ∃ u ∈ db.users, u.id = d'.userId ∧
      (u.status = .active ∨ d'.platform = identityPlatform)) : Accounts { db with devices := t } where
  sessionOwner := ha.sessionOwner
  deviceOwner d hd := by
    rcases ht d hd with hm | ⟨u, hu, hid, -⟩
    · exact ha.deviceOwner d hm
    · exact ⟨u, hu, hid⟩
  unique := ha.unique
  named := ha.named
  denied := ha.denied
  dismissed v hv hst := by
    refine ⟨(ha.dismissed v hv hst).sessions, fun d hd hp hid => ?_⟩
    rcases ht d hd with hm | ⟨u, hu, hui, hact | hpl⟩
    · exact (ha.dismissed v hv hst).devices d hm hp hid
    · have : u = v := Table.eq_of_key hu hv (hui.trans hid)
      rw [this, hst] at hact
      cases hact
    · exact absurd hpl hp

theorem storeDevice_devices {c : PairingClaims} {g : Registration} {origin : Option SessionId} {id : DeviceId}
    {t : Table Device.id} (h : storeDevice cfg db c g origin id = .ok t) :
    ∀ d' ∈ t, d' ∈ db.devices ∨ d'.userId = c.sub := by
  intro d' hd'
  simp only [storeDevice] at h
  split at h
  · rename_i old hold
    cases h
    have hp := List.find?_some hold
    simp only [decide_eq_true_eq] at hp
    rcases Table.mem_update_cases hd' with ⟨hm, -⟩ | ⟨d, hm, hid, rfl⟩
    · exact Or.inl hm
    · have : d = old := Table.eq_of_key hm (List.mem_of_find?_eq_some hold) hid
      exact Or.inr (by rw [this]; exact hp.1)
  · simp only [bind_ok, require_ok, fetch_ok] at h
    obtain ⟨-, -, h⟩ := h
    rcases (Table.mem_insert h).mp hd' with hm | rfl
    · exact Or.inl hm
    · exact Or.inr rfl

/-! ## Accounts that appear or change -/

/-- A new account. -/
theorem Accounts.insertUser {u : User} (ha : Accounts db) (h : Auth.insertUser db u = .ok db') : Accounts db' := by
  obtain ⟨⟨-, huniq, htrig, -⟩, t, ht, rfl⟩ := insertUser_ok h
  have hfresh : ∀ x ∈ db.users, x.id ≠ u.id := Table.get_eq_none.mp (Table.insert_fresh ht)
  have hmem : ∀ x, x ∈ t ↔ x ∈ db.users ∨ x = u := fun x => Table.mem_insert ht
  refine ⟨?_, ?_, ?_, ha.named, ?_, ?_⟩
  · intro r hr
    obtain ⟨x, hx, hid⟩ := ha.sessionOwner r hr
    exact ⟨x, (hmem x).mpr (Or.inl hx), hid⟩
  · intro d hd
    obtain ⟨x, hx, hid⟩ := ha.deviceOwner d hd
    exact ⟨x, (hmem x).mpr (Or.inl hx), hid⟩
  · intro x hx y hy hne hi hs
    rcases (hmem x).mp hx with hx | rfl <;> rcases (hmem y).mp hy with hy | rfl
    · exact ha.unique x hx y hy hne hi hs
    · exact absurd ⟨hi, hs⟩ (huniq (hs ▸ hne) x hx (hfresh x hx))
    · exact absurd ⟨hi.symm, hs.symm⟩ (huniq hne y hy (hfresh y hy))
    · rfl
  · intro x hx hd
    rcases (hmem x).mp hx with hx | rfl
    · exact ha.denied x hx hd
    · cases hst : x.status with
      | disabled => rfl
      | active => exact absurd ⟨hst, hd⟩ htrig
  · intro x hx hst
    rcases (hmem x).mp hx with hx | rfl
    · exact ⟨(ha.dismissed x hx hst).sessions, (ha.dismissed x hx hst).devices⟩
    · refine ⟨fun r hr hid => ?_, fun d hd _ hid => ?_⟩
      · obtain ⟨y, hy, hyi⟩ := ha.sessionOwner r hr
        exact absurd (hyi.trans hid) (hfresh y hy)
      · obtain ⟨y, hy, hyi⟩ := ha.deviceOwner d hd
        exact absurd (hyi.trans hid) (hfresh y hy)

/-- Everything but what is said of the account that a statement rewrites: `v` is the row as it is written. -/
structure Rewritten (db : Db) (x v : User) (db' : Db) : Prop where
  users : ∀ y ∈ db'.users, (y ∈ db.users ∧ y.id ≠ x.id) ∨ y = v
  row : v ∈ db'.users
  id : v.id = x.id
  others : ∀ y ∈ db.users, y.id ≠ x.id → y ∈ db'.users

theorem Rewritten.update {x : User} {f : User → User} (hx : x ∈ db.users) (hf : ∀ y, (f y).id = y.id)
    (h : db'.users = db.users.update (fun y => y.id = x.id) f) : Rewritten db x (f x) db' where
  users y hy := by
    rw [h] at hy
    rcases Table.mem_update_cases hy hf with ⟨hm, hne⟩ | ⟨z, hz, hid, rfl⟩
    · exact Or.inl ⟨hm, hne⟩
    · rw [Table.eq_of_key hz hx hid]
      exact Or.inr rfl
  row := by
    rw [h]
    exact Table.mem_update_of hx rfl hf
  id := hf x
  others y hy hne := by
    rw [h]
    exact Table.mem_update_of_not hy hne

/-- An account is rewritten within the unique columns and the triggers, its sessions and devices stay or end, and they
have ended if it is disabled afterwards. -/
theorem Accounts.rewrite {x v : User} {db₁ : Db} (ha : Accounts db) (hr : Rewritten db x v db')
    (hv : userAllowed db₁ v) (hu₁ : db₁.users = db.users) (hd₁ : db'.directory = db₁.directory)
    (hdir : ∀ y ∈ db.users, y.id ≠ x.id → directoryDenies db' y.ssoIssuer y.ssoSubject →
      directoryDenies db y.ssoIssuer y.ssoSubject)
    (hnamed : ∀ d ∈ db'.directory, d.subject ≠ "")
    (hs : ∀ r' ∈ db'.sessions, ∃ r ∈ db.sessions, r.userId = r'.userId ∧ (r'.revokedAt = none → r.revokedAt = none))
    (hd : ∀ d' ∈ db'.devices, ∃ d ∈ db.devices, d.userId = d'.userId ∧ d.platform = d'.platform ∧
      (d'.revokedAt = none → d.revokedAt = none))
    (hend : v.status = .disabled → Dismissed db' v.id) : Accounts db' := by
  have howner : ∀ y ∈ db.users, ∃ y' ∈ db'.users, y'.id = y.id := by
    intro y hy
    by_cases hid : y.id = x.id
    · exact ⟨v, hr.row, hr.id.trans hid.symm⟩
    · exact ⟨y, hr.others y hy hid, rfl⟩
  obtain ⟨-, huniq, htrig, -⟩ := hv
  rw [hu₁] at huniq
  have hvx : ∀ y ∈ db.users, y.id ≠ x.id → v.ssoSubject ≠ "" → ¬(y.ssoIssuer = v.ssoIssuer ∧ y.ssoSubject = v.ssoSubject) :=
    fun y hy hne hsub => huniq hsub y hy (hr.id ▸ hne)
  refine ⟨?_, ?_, ?_, hnamed, ?_, ?_⟩
  · intro r' hr'
    obtain ⟨r, hm, hid, -⟩ := hs r' hr'
    obtain ⟨y, hy, hyi⟩ := ha.sessionOwner r hm
    obtain ⟨y', hy', hid'⟩ := howner y hy
    exact ⟨y', hy', hid'.trans (hyi.trans hid)⟩
  · intro d' hd'
    obtain ⟨d, hm, hid, -⟩ := hd d' hd'
    obtain ⟨y, hy, hyi⟩ := ha.deviceOwner d hm
    obtain ⟨y', hy', hid'⟩ := howner y hy
    exact ⟨y', hy', hid'.trans (hyi.trans hid)⟩
  · intro y hy z hz hne hi hsub
    rcases hr.users y hy with ⟨hym, hyid⟩ | rfl <;> rcases hr.users z hz with ⟨hzm, hzid⟩ | rfl
    · exact ha.unique y hym z hzm hne hi hsub
    · exact absurd ⟨hi, hsub⟩ (hvx y hym hyid (hsub ▸ hne))
    · exact absurd ⟨hi.symm, hsub.symm⟩ (hvx z hzm hzid hne)
    · rfl
  · intro y hy hden
    rcases hr.users y hy with ⟨hym, hyid⟩ | rfl
    · exact ha.denied y hym (hdir y hym hyid hden)
    · cases hst : y.status with
      | disabled => rfl
      | active => exact absurd ⟨hst, (directoryDenies_congr hd₁).mp hden⟩ htrig
  · intro y hy hst
    rcases hr.users y hy with ⟨hym, hyid⟩ | rfl
    · have hdis := ha.dismissed y hym hst
      refine ⟨fun r' hr' hid hn => ?_, fun d' hd' hp hid hn => ?_⟩
      · obtain ⟨r, hm, hu, hl⟩ := hs r' hr'
        exact hdis.sessions r hm (hu.trans hid) (hl hn)
      · obtain ⟨d, hm, hu, hpl, hl⟩ := hd d' hd'
        exact hdis.devices d hm (hpl ▸ hp) (hu.trans hid) (hl hn)
    · exact hend hst

/-! ## Deliveries -/

/-- A state row that denies no account keeps the accounts in order. -/
theorem Accounts.withDirectory (ha : Accounts db) (hu : db'.users = db.users) (hs : db'.sessions = db.sessions)
    (hd : db'.devices = db.devices) (hnamed : ∀ d ∈ db'.directory, d.subject ≠ "")
    (hden : ∀ y ∈ db.users, directoryDenies db' y.ssoIssuer y.ssoSubject →
      directoryDenies db y.ssoIssuer y.ssoSubject) : Accounts db' where
  sessionOwner := by rw [hs, hu]; exact ha.sessionOwner
  deviceOwner := by rw [hd, hu]; exact ha.deviceOwner
  unique := by rw [hu]; exact ha.unique
  named := hnamed
  denied := by
    rw [hu]
    exact fun y hy h => ha.denied y hy (hden y hy h)
  dismissed y hy hst := by
    rw [hu] at hy
    have hdis := ha.dismissed y hy hst
    exact ⟨by rw [hs]; exact hdis.sessions, by rw [hd]; exact hdis.devices⟩

/-- An account that has the identity is the one that a delivery finds. -/
theorem findAccount_identity {issuer : String} {u : DirectoryUser} {y : User} (ha : Accounts db) (hid : u.id ≠ "")
    (hy : y ∈ db.users) (hi : y.ssoIssuer = issuer) (hs : y.ssoSubject = u.id) :
    findAccount cfg db issuer u = some y := by
  unfold findAccount
  split
  · rename_i x hx
    have hp := List.find?_some hx
    simp only [decide_eq_true_eq] at hp
    rw [ha.unique x (List.mem_of_find?_eq_some hx) y hy (by rw [hp.1]; exact hid) (hp.2.trans hi.symm)
      (hp.1.trans hs.symm)]
  · rename_i hn
    have := List.find?_eq_none.mp hn y hy
    simp [hs, hi] at this

/-- A row of the directory after a delivery: the delivered one, or one of another subject. -/
theorem mem_withState {e : Delivery} {issuer : String} {revision : Nat} {active : Bool} {d : DirectoryState}
    (h : d ∈ (withState cfg db e issuer revision active now).directory) :
    (d ∈ db.directory ∧ d.key ≠ (issuer, e.resource.id)) ∨
      (d.issuer = issuer ∧ d.subject = e.resource.id ∧ d.revision = revision ∧ d.digest = e.digest cfg ∧
        d.active = active) := by
  rcases (Table.mem_upsert).mp h with ⟨hm, hk⟩ | ⟨hk, hd⟩
  · exact Or.inl ⟨hm, hk⟩
  · obtain ⟨hi, hs⟩ := Prod.mk.inj hk
    refine Or.inr ⟨hi, hs, ?_⟩
    rw [hd]
    cases db.directory.get (e.state cfg issuer revision active now).key <;> exact ⟨rfl, rfl, rfl⟩

theorem withState_named {e : Delivery} {issuer : String} {revision : Nat} {active : Bool} (ha : Accounts db)
    (hid : e.resource.id ≠ "") :
    ∀ d ∈ (withState cfg db e issuer revision active now).directory, d.subject ≠ "" := by
  intro d hd
  rcases mem_withState hd with ⟨hm, -⟩ | ⟨-, hs, -⟩
  · exact ha.named d hm
  · rw [hs]
    exact hid

/-- A delivery denies nobody but, when it is inactive, its own subject. -/
theorem withState_denies {e : Delivery} {issuer : String} {revision : Nat} {active : Bool} {i s : String}
    (h : directoryDenies (withState cfg db e issuer revision active now) i s) :
    directoryDenies db i s ∨ (active = false ∧ i = issuer ∧ s = e.resource.id) := by
  obtain ⟨d, hd, hi, hs, hact⟩ := h
  rcases mem_withState hd with ⟨hm, -⟩ | ⟨hi', hs', -, -, ha⟩
  · exact Or.inl ⟨d, hm, hi, hs, hact⟩
  · exact Or.inr ⟨ha.symm.trans hact, hi.symm.trans hi', hs.symm.trans hs'⟩

/-- An inactive delivery leaves its subject without credentials. -/
theorem endIdentity_dismissed {issuer subject : String} {u : User} (hu : u ∈ db.users) (hi : u.ssoIssuer = issuer)
    (hs : u.ssoSubject = subject) : Dismissed (endIdentity db issuer subject now) u.id where
  sessions r' hr' hid hn := by
    rcases Table.mem_update_cases hr' with ⟨-, hnp⟩ | ⟨r, -, -, rfl⟩
    · exact hnp ⟨hn, u, hu, hid.symm, hi, hs⟩
    · cases hn
  devices d' hd' hp hid hn := by
    rcases Table.mem_update_cases hd' with ⟨-, hnp⟩ | ⟨d, -, -, rfl⟩
    · exact hnp ⟨hp, hn, u, hu, hid.symm, hi, hs⟩
    · cases hn

/-- An applied delivery keeps the accounts in order. -/
theorem Accounts.applyDelivery {e : Delivery} {issuer : String} {revision : Nat} {active : Bool} {new : Fresh}
    (ha : Accounts db) (hid : e.resource.id ≠ "")
    (h : Auth.applyDelivery cfg db e issuer revision active new now = .ok db') : Accounts db' := by
  obtain ⟨db₁, h₁, rfl⟩ := applyDelivery_ok h
  have hnamed : ∀ d ∈ (withState cfg db e issuer revision active now).directory, d.subject ≠ "" := withState_named ha hid
  -- no account has the identity: the row denies nobody
  have hnone (hf : findAccount cfg db issuer e.resource = none) :
      Accounts (withState cfg db e issuer revision active now) := by
    refine ha.withDirectory rfl rfl rfl hnamed fun y hy hden => ?_
    rcases withState_denies hden with hden | ⟨-, hi, hs⟩
    · exact hden
    · exact absurd ⟨hs, hi⟩ (findAccount_none hf y hy)
  have hend : Ends db₁ (if active = true then db₁ else endIdentity db₁ issuer e.resource.id now) := by
    split
    · exact Ends.refl db₁
    · exact Ends.endIdentity
  rcases syncSingleUser_ok h₁ with ⟨hf, -, rfl⟩ | ⟨hf, -, hins⟩ | ⟨x, hf, -, -, hallowed, rfl⟩
  · exact (hnone hf).ends hend
  · exact ((hnone hf).insertUser hins).ends hend
  · have hfx : findAccount cfg db issuer e.resource = some x := hf
    have hx : x ∈ db.users := Table.get_mem (findAccount_some hfx)
    have hrole : Ends (withState cfg db e issuer revision active now)
        (afterRoleChange (withState cfg db e issuer revision active now) e.resource issuer x now) := Ends.afterRoleChange
    refine ha.rewrite (x := x)
      (v := directoryWrite cfg (withState cfg db e issuer revision active now) e.resource issuer active x x)
      (Rewritten.update hx (fun _ => rfl) ?_) hallowed (afterRoleChange_users _ _ _) ?_ ?_ ?_ ?_ ?_ ?_
    · split <;> rfl
    · split <;> rfl
    · intro y hy hne hden
      have hden' : directoryDenies (withState cfg db e issuer revision active now) y.ssoIssuer y.ssoSubject := by
        refine (directoryDenies_congr ?_).mp hden
        rw [hend.directory]
        exact hrole.directory
      rcases withState_denies hden' with hden' | ⟨-, hi, hs⟩
      · exact hden'
      · have hfy : findAccount cfg db issuer e.resource = some y := findAccount_identity ha hid hy hi hs
        rw [hfx] at hfy
        exact absurd (congrArg User.id (Option.some.inj hfy)).symm hne
    · rw [hend.directory]
      intro d hd
      exact hnamed d (hrole.directory ▸ hd)
    · intro r' hr'
      obtain ⟨r, hr, hu, hl⟩ := hend.sessions r' hr'
      obtain ⟨r₀, hr₀, hu₀, hl₀⟩ := hrole.sessions r hr
      exact ⟨r₀, hr₀, hu₀.trans hu, fun hn => hl₀ (hl hn)⟩
    · intro d' hd'
      obtain ⟨d, hd, hu, hp, hl⟩ := hend.devices d' hd'
      obtain ⟨d₀, hd₀, hu₀, hp₀, hl₀⟩ := hrole.devices d hd
      exact ⟨d₀, hd₀, hu₀.trans hu, hp₀.trans hp, fun hn => hl₀ (hl hn)⟩
    · intro hst
      cases active with
      | true => cases hst
      | false =>
        refine endIdentity_dismissed
          (u := directoryWrite cfg (withState cfg db e issuer revision false now) e.resource issuer false x x) ?_ rfl rfl
        exact Table.mem_update_of hx rfl

/-! ## Every transaction -/

theorem Ends.collectSessions : Ends db (collectSessions db now) where
  users u hu := ⟨u, hu, rfl, rfl, rfl, rfl⟩
  kept u hu := ⟨u, hu, rfl⟩
  sessions r hr := ⟨r, (Table.mem_delete.mp hr).1, rfl, id⟩
  devices d hd := ⟨d, hd, rfl, rfl, id⟩
  directory := rfl

theorem Ends.deleteIdentity {userId : UserId} : Ends db (deleteIdentity db userId) where
  users u hu := ⟨u, hu, rfl, rfl, rfl, rfl⟩
  kept u hu := ⟨u, hu, rfl⟩
  sessions r hr := ⟨r, hr, rfl, id⟩
  devices d hd := ⟨d, (Table.mem_delete.mp hd).1, rfl, rfl, id⟩
  directory := rfl

theorem Ends.afterReset {s : Session} : Ends db (afterReset db s now) := by
  have h₁ : Ends db (Auth.revokeSessions db (fun r => r.userId = s.userId ∧ r.id ≠ s.id ∧ r.revokedAt = none) now) :=
    Ends.revokeSessions
  exact ((h₁.trans Ends.revokeDevices).trans Ends.deleteIdentity).trans (Ends.of_same rfl rfl rfl rfl)

theorem Ends.stripPasswordWrap {userId : UserId} : Ends db (stripPasswordWrap db userId) :=
  Ends.of_same rfl rfl rfl rfl

theorem Ends.saveSettings {cached settings : Settings} : Ends db (saveSettings db cached settings now) := by
  unfold Auth.saveSettings
  have h : Ends db { db with settings := settings } := Ends.of_same rfl rfl rfl rfl
  split
  · exact h.trans Ends.revokeSessions
  · exact h

theorem check_named {u : DirectoryUser} {kind : String} {x : Nat × Bool} (h : u.check cfg kind = some x) : u.id ≠ "" := by
  unfold DirectoryUser.check at h
  split at h
  · split at h
    · rename_i hp
      have := hp.2.2.1
      simp only [directoryIdentifier, decide_eq_true_eq] at this
      exact this.1
    · cases h
  · cases h

/-- Every transaction keeps the accounts in order. -/
theorem tx_accounts {w : World} {op : Op} (h : tx cfg w op = .ok db') (ha : Accounts w.db) : Accounts db' := by
  have hsame (ht : ∀ t : Tbl, t = .users ∨ t = .sessions ∨ t = .devices ∨ t = .directory → t ∉ op.touches) :
      Accounts db' :=
    ha.same (tx_frame h (ht .users (by simp))) (tx_frame h (ht .sessions (by simp)))
      (tx_frame h (ht .devices (by simp))) (tx_frame h (ht .directory (by simp)))
  cases op with
  | saveSettings cached settings =>
    cases h
    exact ha.ends Ends.saveSettings
  | createAccount u => exact ha.insertUser h
  | login userId secret stored prepared =>
    simp only [tx, bind_ok, require_ok] at h
    obtain ⟨-, -, h⟩ := h
    obtain ⟨⟨u, hu, hid, hact, -⟩, t, ht, rfl⟩ := mintPasswordSession_ok h
    exact ha.insertSession ⟨u, hu, hid, hact⟩ ht
  | ssoLogin userId i prepared =>
    obtain ⟨-, hc, t, ht, rfl⟩ := mintSSOSession_ok.mp h
    obtain ⟨⟨u, hu, hid, hact, -⟩, -⟩ := checkSSOIdentityTx_ok hc
    exact ha.insertSession ⟨u, hu, hid, hact⟩ ht
  | extendSession id seen =>
    cases h
    exact ha.ends (Ends.sessions_update fun _ => ⟨rfl, rfl, fun hn => hn⟩)
  | stepUp s secret stored =>
    obtain ⟨-, -, rfl⟩ := stepUp_ok h
    exact ha.ends (Ends.sessions_update fun _ => ⟨rfl, rfl, fun hn => hn⟩)
  | revokeSession id =>
    cases h
    exact ha.ends Ends.revokeSessions
  | logoutAll userId =>
    cases h
    exact ha.ends Ends.revokeSessions
  | collectSessions =>
    cases h
    exact ha.ends Ends.collectSessions
  | ssoLogout c clientId =>
    obtain ⟨-, -, t, -, rfl⟩ := applySSOLogout_ok.mp h
    have hev : Ends w.db { w.db with logoutEvents := t } := Ends.of_same rfl rfl rfl rfl
    exact ha.ends ((hev.trans Ends.revokeSessions).trans Ends.revokeDevices)
  | deliver settings e hash salt =>
    obtain ⟨⟨_, a⟩, hd, rfl⟩ := map_ok.mp h
    obtain ⟨revision, active, hacc, hcase⟩ := directoryRequest_ok hd
    have hev : Accounts (withSyncEvent cfg w.db e settings.ssoIssuerUrl w.clock) :=
      ha.same rfl rfl rfl rfl
    rcases hcase with ⟨-, -, happ⟩ | ⟨-, -, rfl⟩
    · exact hev.applyDelivery (check_named hacc.check) happ
    · exact hev
  | patchUser s id role status quotaBytes =>
    obtain ⟨-, -, u, hu, hallowed, rfl⟩ := patchUser_ok h
    obtain ⟨hum, rfl⟩ := Table.get_eq_some.mp hu
    have hrow : Rewritten w.db u { u with role := role, status := status, quotaBytes := quotaBytes }
        { w.db with
          users := w.db.users.update (fun x => x.id = u.id) fun x =>
            { x with role := role, status := status, quotaBytes := quotaBytes } } :=
      Rewritten.update (f := fun x => { x with role := role, status := status, quotaBytes := quotaBytes }) hum
        (fun _ => rfl) rfl
    simp only
    split
    · rename_i hst
      refine ha.rewrite ⟨hrow.users, hrow.row, hrow.id, hrow.others⟩ hallowed rfl rfl (fun _ _ _ hd => hd) ha.named
        Ends.endCredentials.sessions Ends.endCredentials.devices fun _ => ?_
      refine ⟨fun r' hr' hid hn => ?_, fun d' hd' hp hid hn => ?_⟩
      · rcases Table.mem_update_cases hr' with ⟨-, hnp⟩ | ⟨r, -, -, rfl⟩
        · exact hnp ⟨hid, hn⟩
        · cases hn
      · rcases Table.mem_update_cases hd' with ⟨-, hnp⟩ | ⟨d, -, -, rfl⟩
        · exact hnp ⟨hid, hp, hn⟩
        · cases hn
    · rename_i hst
      exact ha.rewrite hrow hallowed rfl rfl (fun _ _ _ hd => hd) ha.named (fun r hr => ⟨r, hr, rfl, fun hn => hn⟩)
        (fun d hd => ⟨d, hd, rfl, rfl, fun hn => hn⟩) fun hdis => absurd hdis hst
  | grantAdmin userId issuer subject =>
    obtain rfl := grantAdmin_ok h
    have hr : Ends w.db (revokeForRoleChange w.db issuer subject userId w.clock) := Ends.revokeForRoleChange
    exact ha.ends (hr.trans (Ends.users_update fun _ => ⟨rfl, rfl, rfl, rfl⟩))
  | register c g seen =>
    simp only [tx, bind_ok, require_ok] at h
    obtain ⟨-, -, h⟩ := h
    obtain ⟨-, -, ⟨u, hu, -, hact⟩, _, _, -, nonces, devices, -, hd, rfl⟩ := registerDevice_ok h
    obtain ⟨hum, hid⟩ := Table.get_eq_some.mp hu
    have hdev : Accounts { w.db with devices := devices } := by
      refine ha.devices fun d' hd' => ?_
      rcases storeDevice_devices hd d' hd' with hm | hsub
      · exact Or.inl hm
      · exact Or.inr ⟨u, hum, hid.trans hsub.symm, Or.inl hact⟩
    exact hdev.same rfl rfl rfl rfl
  | revokeDevice s id =>
    obtain rfl := revokeDevice_ok h
    exact ha.ends Ends.revokeDevices
  | putIdentity s p unusable =>
    obtain ⟨-, -, db₁, hp, hi⟩ := putIdentity_ok h
    have h₁ : Accounts db₁ := by
      rcases hp with ⟨-, rfl⟩ | ⟨-, rfl⟩
      · exact ha
      · exact ha.ends Ends.afterReset
    obtain ⟨-, ⟨u, hu, hid, -⟩, devices, identities, hd, -, rfl⟩ := insertIdentity_ok hi
    have hdev : Accounts { db₁ with devices := devices } := by
      refine h₁.devices fun d' hd' => ?_
      rcases (Table.mem_insert hd).mp hd' with hm | rfl
      · exact Or.inl hm
      · exact Or.inr ⟨u, hu, hid, Or.inr rfl⟩
    exact hdev.same rfl rfl rfl rfl
  | changePassword s p stored confirmed salt =>
    obtain ⟨-, hn, hw⟩ := changePassword_ok h
    cases hp : p.wrapped with
    | none =>
      obtain ⟨-, rfl⟩ := hn hp
      exact ha.ends Ends.afterChange
    | some x =>
      obtain ⟨_, _, -, hg⟩ := hw x hp
      obtain ⟨rfl, -⟩ := writeWrap_ok hg
      exact (ha.ends Ends.afterChange).same rfl rfl rfl rfl
  | upgradeLogin s p stored salt =>
    obtain ⟨-, -, hn, hw⟩ := upgradeLogin_ok h
    have key : Accounts (afterUpgrade cfg w.db s p salt) := ha.ends Ends.setVerifier
    cases hp : p.wrapped with
    | none =>
      obtain rfl := hn hp
      exact key
    | some x =>
      obtain ⟨rfl, -⟩ := writeWrap_ok (hw x hp)
      exact key.same rfl rfl rfl rfl
  | recoverAccount userId p stored nextHash salt =>
    obtain ⟨-, rfl⟩ := recoverAccount_ok h
    refine Accounts.ends Ends.revokeDevices (Accounts.ends Ends.stripPasswordWrap ?_)
    exact Accounts.ends Ends.revokeSessions (Accounts.ends Ends.setVerifier ha)
  | resetPassword userId secret loginSalt iterations salt =>
    obtain rfl := resetPassword_ok h
    refine Accounts.ends Ends.stripPasswordWrap (Accounts.ends Ends.revokeDevices ?_)
    exact Accounts.ends Ends.revokeSessions (Accounts.ends Ends.setVerifier ha)
  | _ => exact hsame (by rintro t (rfl | rfl | rfl | rfl) <;> simp [Op.touches])

theorem init_accounts : Accounts World.init.db :=
  ⟨nofun, nofun, nofun, nofun, nofun, nofun⟩

/-- Every run keeps the accounts in order. -/
theorem reach_accounts (cfg : Config) {w : World} (ops : List Op) (hw : Accounts w.db) : Accounts (reach cfg w ops).db :=
  run_inv (P := fun w : World => Accounts w.db) (fun _ _ h => step_keeps (fun _ => tx_accounts) h) ops hw

end KyNotes.Auth
