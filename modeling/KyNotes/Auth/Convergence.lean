import KyNotes.Auth.Dismissal

/-!
# Directory sync converges on the highest revision

* `deliver_directory`: what a committed delivery does to the state row of its subject.
* `Advances`: rows stay, their revisions and their `revoked_before` never go down (`reach_advances`).
* `Tracks`: a stored row is that of an accepted delivery, and no accepted delivery is ahead of it (`history_tracks`).
* `deliver_refused`, `deliver_replay`: a stale or forked delivery changes no row, a replay no account.
* `identity_kept`: the account of an identity stays its account, so an inactive row keeps it dismissed.
-/

namespace KyNotes.Auth

open Relational Check Transition

variable {cfg : Config} {db db' : Db} {now : Time}

/-- A committed delivery for the subject, with its revision, digest and flag. -/
def Entry.Delivers (cfg : Config) (x : Entry) (issuer subject : String) (revision : Nat) (digest : Digest)
    (active : Bool) : Prop :=
  ∃ settings e hash salt, x.op = .deliver settings e hash salt ∧ settings.ssoIssuerUrl = issuer ∧
    e.resource.id = subject ∧ e.resource.check cfg e.kind = some (revision, active) ∧ e.digest cfg = digest

/-- Rows stay, and neither their revisions nor their fences go down. -/
def Advances (db db' : Db) : Prop :=
  ∀ k d, db.directory.get k = some d → ∃ d', db'.directory.get k = some d' ∧ d.revision ≤ d'.revision ∧
    d.revokedBefore ≤ d'.revokedBefore

/-- A stored row is that of an accepted delivery, and no accepted delivery for its subject is ahead of it. -/
structure Tracks (cfg : Config) (db : Db) (log : List Entry) : Prop where
  stored : ∀ d ∈ db.directory, ∃ x ∈ log, x.Delivers cfg d.issuer d.subject d.revision d.digest d.active
  highest : ∀ x ∈ log, ∀ issuer subject revision digest active, x.Delivers cfg issuer subject revision digest active →
    ∃ d, db.directory.get (issuer, subject) = some d ∧
      (revision < d.revision ∨ (revision = d.revision ∧ digest = d.digest))

/-! ## One delivery -/

theorem syncSingleUser_directory {issuer : String} {u : DirectoryUser} {active : Bool} {new : Fresh}
    (h : syncSingleUser cfg db issuer u active new now = .ok db') : db'.directory = db.directory := by
  rcases syncSingleUser_ok h with ⟨-, -, rfl⟩ | ⟨-, -, hi⟩ | ⟨x, -, -, -, -, rfl⟩
  · rfl
  · obtain ⟨-, _, -, rfl⟩ := insertUser_ok hi
    rfl
  · unfold afterRoleChange
    split <;> rfl

theorem applyDelivery_directory {e : Delivery} {issuer : String} {revision : Nat} {active : Bool} {new : Fresh}
    (h : applyDelivery cfg db e issuer revision active new now = .ok db') :
    db'.directory = (withState cfg db e issuer revision active now).directory := by
  obtain ⟨db₁, h₁, rfl⟩ := applyDelivery_ok h
  rw [← syncSingleUser_directory h₁]
  split <;> rfl

/-- The row that an applied delivery stores. -/
def deliveredRow (cfg : Config) (db : Db) (e : Delivery) (issuer : String) (revision : Nat) (active : Bool) (now : Time) :
    DirectoryState :=
  (db.directory.get (issuer, e.resource.id)).elim (e.state cfg issuer revision active now) fun d =>
    { d with
      revision := revision, digest := e.digest cfg, active := active, eventId := e.eventId
      revokedBefore := max d.revokedBefore (if active then 0 else format now) }

theorem deliveredRow_fields (cfg : Config) (db : Db) (e : Delivery) (issuer : String) (revision : Nat) (active : Bool)
    (now : Time) :
    (deliveredRow cfg db e issuer revision active now).revision = revision ∧
      (deliveredRow cfg db e issuer revision active now).digest = e.digest cfg ∧
      (deliveredRow cfg db e issuer revision active now).active = active := by
  unfold deliveredRow
  cases db.directory.get (issuer, e.resource.id) <;> exact ⟨rfl, rfl, rfl⟩

theorem get_withState {e : Delivery} {issuer : String} {revision : Nat} {active : Bool} (k : String × String) :
    (withState cfg db e issuer revision active now).directory.get k =
      if (issuer, e.resource.id) = k then some (deliveredRow cfg db e issuer revision active now)
      else db.directory.get k := by
  refine (Table.get_upsert k).trans ?_
  split
  · rename_i hk
    have hk' : (issuer, e.resource.id) = k := hk
    rw [if_pos hk', ← hk']
    rfl
  · rename_i hk
    have hk' : ¬(issuer, e.resource.id) = k := hk
    rw [if_neg hk']

/-- A committed delivery has a new revision and stores its row, or it is the stored one and no row changes. -/
theorem deliver_directory {w : World} {settings : Settings} {e : Delivery} {hash salt : String}
    (h : tx cfg w (.deliver settings e hash salt) = .ok db') :
    ∃ revision active, e.resource.check cfg e.kind = some (revision, active) ∧
      ((storedRevision w.db settings.ssoIssuerUrl e.resource.id < revision ∧
          ∀ k, db'.directory.get k = if (settings.ssoIssuerUrl, e.resource.id) = k then
            some (deliveredRow cfg w.db e settings.ssoIssuerUrl revision active w.clock) else w.db.directory.get k) ∨
        ((∃ d, w.db.directory.get (settings.ssoIssuerUrl, e.resource.id) = some d ∧ d.revision = revision ∧
          d.digest = e.digest cfg) ∧ db'.directory = w.db.directory)) := by
  obtain ⟨⟨_, a⟩, hd, rfl⟩ := map_ok.mp h
  obtain ⟨revision, active, hacc, hcase⟩ := directoryRequest_ok hd
  refine ⟨revision, active, hacc.check, ?_⟩
  rcases hcase with ⟨hlt, -, happ⟩ | ⟨heq, -, rfl⟩
  · refine Or.inl ⟨hlt, fun k => ?_⟩
    rw [applyDelivery_directory happ]
    exact get_withState k
  · refine Or.inr ⟨?_, rfl⟩
    have hdig := hacc.notForked heq.symm
    cases hg : w.db.directory.get (settings.ssoIssuerUrl, e.resource.id) with
    | none =>
      rw [hg] at hdig
      cases hdig
    | some d =>
      rw [hg] at hdig
      simp only [storedRevision, hg, Option.map_some, Option.getD_some] at heq
      exact ⟨d, rfl, heq, Option.some.inj hdig⟩

/-! ## Rows never go back -/

theorem Advances.refl (db : Db) : Advances db db := fun _ d h => ⟨d, h, Nat.le_refl _, Nat.le_refl _⟩

theorem Advances.trans {a b c : Db} (h₁ : Advances a b) (h₂ : Advances b c) : Advances a c := by
  intro k d hd
  obtain ⟨d', hd', hr, hf⟩ := h₁ k d hd
  obtain ⟨d'', hd'', hr', hf'⟩ := h₂ k d' hd'
  exact ⟨d'', hd'', Nat.le_trans hr hr', Nat.le_trans hf hf'⟩

theorem Advances.of_directory (h : db'.directory = db.directory) : Advances db db' := by
  intro k d hd
  exact ⟨d, by rw [h]; exact hd, Nat.le_refl _, Nat.le_refl _⟩

theorem tx_advances {w : World} {op : Op} (h : tx cfg w op = .ok db') : Advances w.db db' := by
  by_cases hop : Tbl.directory ∈ op.touches
  · cases op with
    | deliver settings e hash salt =>
      obtain ⟨revision, active, -, ⟨hlt, hget⟩ | ⟨-, hdir⟩⟩ := deliver_directory h
      · intro k d hd
        by_cases hk : (settings.ssoIssuerUrl, e.resource.id) = k
        · subst hk
          refine ⟨deliveredRow cfg w.db e settings.ssoIssuerUrl revision active w.clock, ?_, ?_, ?_⟩
          · rw [hget, if_pos rfl]
          · rw [(deliveredRow_fields _ _ _ _ _ _ _).1]
            simp only [storedRevision, hd, Option.map_some, Option.getD_some] at hlt
            exact Nat.le_of_lt hlt
          · simp only [deliveredRow, hd, Option.elim_some]
            exact Nat.le_max_left _ _
        · exact ⟨d, by rw [hget, if_neg hk, hd], Nat.le_refl _, Nat.le_refl _⟩
      · exact Advances.of_directory hdir
    | _ => simp [Op.touches] at hop
  · exact Advances.of_directory (tx_frame h hop)

/-- Over every run. -/
theorem reach_advances (cfg : Config) (w : World) (ops : List Op) : Advances w.db (reach cfg w ops).db :=
  run_rel (P := fun _ : World => True) (R := fun v w : World => Advances v.db w.db) (fun _ _ _ => trivial)
    (fun v => Advances.refl v.db) (fun _ _ _ h₁ h₂ => h₁.trans h₂)
    (fun v _ _ => step_keeps (P := Advances v.db) (fun _ h _ => tx_advances h) (Advances.refl v.db)) ops trivial

/-! ## The row of the highest revision -/

theorem Entry.Delivers.unique {w : World} {settings : Settings} {e : Delivery} {hash salt : String} {issuer subject : String}
    {revision : Nat} {digest : Digest} {active : Bool}
    (h : Entry.Delivers cfg ⟨w.clock, w.next, .deliver settings e hash salt⟩ issuer subject revision digest active) :
    settings.ssoIssuerUrl = issuer ∧ e.resource.id = subject ∧ e.resource.check cfg e.kind = some (revision, active) ∧
      e.digest cfg = digest := by
  obtain ⟨settings', e', hash', salt', hop, h⟩ := h
  cases hop
  exact h

/-- A step keeps the rows at the highest accepted revision. -/
theorem step_tracks {w : World} {op : Op} {log : List Entry} (ht : Tracks cfg w.db log) :
    Tracks cfg (step cfg w op).db (log ++ commits cfg w op) := by
  cases hx : tx cfg w op with
  | error e =>
    rw [step_error hx, commits_error hx, List.append_nil]
    exact ht
  | ok db' =>
    rw [step_ok hx, commits_ok hx]
    -- the old entries stay within the rows, which only advance
    have hold : ∀ x ∈ log, ∀ issuer subject revision digest active,
        x.Delivers cfg issuer subject revision digest active →
        (∀ d, w.db.directory.get (issuer, subject) = some d → ∃ d', db'.directory.get (issuer, subject) = some d' ∧
          (d.revision < d'.revision ∨ d' = d)) →
        ∃ d, db'.directory.get (issuer, subject) = some d ∧
          (revision < d.revision ∨ (revision = d.revision ∧ digest = d.digest)) := by
      intro x hx' issuer subject revision digest active hdel hstep
      obtain ⟨d, hd, hle⟩ := ht.highest x hx' issuer subject revision digest active hdel
      obtain ⟨d', hd', hlt | rfl⟩ := hstep d hd
      · refine ⟨d', hd', Or.inl ?_⟩
        rcases hle with h | ⟨h, -⟩
        · exact Nat.lt_trans h hlt
        · rw [h]
          exact hlt
      · exact ⟨d', hd', hle⟩
    by_cases hop : Tbl.directory ∈ op.touches
    · cases op with
      | deliver settings e hash salt =>
        obtain ⟨revision, active, hcheck, ⟨hlt, hget⟩ | ⟨⟨d₀, hd₀, hrev, hdig⟩, hdir⟩⟩ := deliver_directory hx
        · have hnew : Entry.Delivers cfg ⟨w.clock, w.next, .deliver settings e hash salt⟩ settings.ssoIssuerUrl
              e.resource.id revision (e.digest cfg) active := ⟨settings, e, hash, salt, rfl, rfl, rfl, hcheck, rfl⟩
          obtain ⟨hr, hdg, hact⟩ := deliveredRow_fields cfg w.db e settings.ssoIssuerUrl revision active w.clock
          refine ⟨fun d hd => ?_, fun x hx' issuer subject rev dig act hdel => ?_⟩
          · have hg : db'.directory.get d.key = some d := Table.get_of_mem hd
            rw [hget] at hg
            split at hg
            · rename_i hk
              obtain ⟨hi, hs⟩ := Prod.mk.inj hk
              cases hg
              rw [hr, hdg, hact, ← hi, ← hs]
              exact ⟨_, List.mem_append_right _ (List.mem_singleton.mpr rfl), hnew⟩
            · obtain ⟨x, hxl, hdel⟩ := ht.stored d (Table.get_mem hg)
              exact ⟨x, List.mem_append_left _ hxl, hdel⟩
          · rcases List.mem_append.mp hx' with hx' | hx'
            · refine hold x hx' issuer subject rev dig act hdel fun d hd => ?_
              by_cases hk : (settings.ssoIssuerUrl, e.resource.id) = (issuer, subject)
              · refine ⟨_, by rw [hget, if_pos hk], Or.inl ?_⟩
                rw [hr]
                rw [← hk] at hd
                simpa only [storedRevision, hd, Option.map_some, Option.getD_some] using hlt
              · exact ⟨d, by rw [hget, if_neg hk, hd], Or.inr rfl⟩
            · rw [List.mem_singleton.mp hx'] at hdel
              obtain ⟨hi, hs, hc, hdd⟩ := hdel.unique
              rw [hcheck] at hc
              cases hc
              refine ⟨_, by rw [hget, if_pos (by rw [hi, hs])], Or.inr ⟨hr.symm, ?_⟩⟩
              rw [hdg, hdd]
        · refine ⟨fun d hd => ?_, fun x hx' issuer subject rev dig act hdel => ?_⟩
          · obtain ⟨x, hxl, hdel⟩ := ht.stored d (hdir ▸ hd)
            exact ⟨x, List.mem_append_left _ hxl, hdel⟩
          · rcases List.mem_append.mp hx' with hx' | hx'
            · exact hold x hx' issuer subject rev dig act hdel fun d hd => ⟨d, by rw [hdir, hd], Or.inr rfl⟩
            · rw [List.mem_singleton.mp hx'] at hdel
              obtain ⟨rfl, rfl, hc, rfl⟩ := hdel.unique
              rw [hcheck] at hc
              cases hc
              exact ⟨d₀, by rw [hdir, hd₀], Or.inr ⟨hrev.symm, hdig.symm⟩⟩
      | _ => simp [Op.touches] at hop
    · have hdir : db'.directory = w.db.directory := tx_frame hx hop
      refine ⟨fun d hd => ?_, fun x hx' issuer subject rev dig act hdel => ?_⟩
      · obtain ⟨x, hxl, hdel⟩ := ht.stored d (hdir ▸ hd)
        exact ⟨x, List.mem_append_left _ hxl, hdel⟩
      · rcases List.mem_append.mp hx' with hx' | hx'
        · exact hold x hx' issuer subject rev dig act hdel fun d hd => ⟨d, by rw [hdir, hd], Or.inr rfl⟩
        · rw [List.mem_singleton.mp hx'] at hdel
          obtain ⟨_, _, _, _, hopd, -⟩ := hdel
          subst hopd
          simp [Op.touches] at hop

theorem history_tracks (cfg : Config) (ops : List Op) :
    Tracks cfg (reach cfg .init ops).db (history cfg .init ops) := by
  have h : Tracks cfg (recorded cfg .init ops).1.db (recorded cfg .init ops).2 :=
    run_inv (P := fun x : World × List Entry => Tracks cfg x.1.db x.2) (fun _ _ => step_tracks) ops
      ⟨fun d hd => absurd hd (Table.not_mem_empty d), fun x hx => absurd hx List.not_mem_nil⟩
  rw [recorded_fst] at h
  exact h

/-! ## Refused and repeated deliveries -/

/-- A lower revision, or the stored one with another body. -/
def Stale (cfg : Config) (db : Db) (settings : Settings) (e : Delivery) (revision : Nat) : Prop :=
  ∃ d, db.directory.get (settings.ssoIssuerUrl, e.resource.id) = some d ∧
    (revision < d.revision ∨ (revision = d.revision ∧ e.digest cfg ≠ d.digest))

/-- The stored revision with the stored body. -/
def Replay (cfg : Config) (db : Db) (settings : Settings) (e : Delivery) (revision : Nat) : Prop :=
  ∃ d, db.directory.get (settings.ssoIssuerUrl, e.resource.id) = some d ∧ revision = d.revision ∧
    e.digest cfg = d.digest

/-- A stale or forked delivery changes no row. -/
theorem deliver_refused {w : World} {settings : Settings} {e : Delivery} {hash salt : String} {revision : Nat}
    {active : Bool} (hcheck : e.resource.check cfg e.kind = some (revision, active))
    (hs : Stale cfg w.db settings e revision) : (step cfg w (.deliver settings e hash salt)).db = w.db := by
  obtain ⟨d, hd, hs⟩ := hs
  cases hx : tx cfg w (.deliver settings e hash salt) with
  | error err => exact step_error hx
  | ok db' =>
    obtain ⟨⟨_, a⟩, hreq, rfl⟩ := map_ok.mp hx
    obtain ⟨revision', active', hacc, -⟩ := directoryRequest_ok hreq
    have hc := hacc.check
    rw [hcheck] at hc
    cases hc
    have hstored : storedRevision w.db settings.ssoIssuerUrl e.resource.id = d.revision := by
      simp only [storedRevision, hd, Option.map_some, Option.getD_some]
    rcases hs with hlt | ⟨heq, hne⟩
    · have := hacc.notStale
      rw [hstored] at this
      exact absurd hlt (Nat.not_lt.mpr this)
    · have := hacc.notForked (by rw [hstored, heq])
      rw [hd] at this
      exact absurd (Option.some.inj this).symm hne

/-- A replay changes no account, no credential and no state row. -/
theorem deliver_replay {w : World} {settings : Settings} {e : Delivery} {hash salt : String} {revision : Nat}
    {active : Bool} (hcheck : e.resource.check cfg e.kind = some (revision, active))
    (hr : Replay cfg w.db settings e revision) :
    ∃ events, (step cfg w (.deliver settings e hash salt)).db = { w.db with syncEvents := events } := by
  obtain ⟨d, hd, heq, -⟩ := hr
  cases hx : tx cfg w (.deliver settings e hash salt) with
  | error err => exact ⟨w.db.syncEvents, step_error hx⟩
  | ok db' =>
    rw [step_ok hx]
    obtain ⟨⟨_, a⟩, hreq, rfl⟩ := map_ok.mp hx
    obtain ⟨revision', active', hacc, ⟨hlt, -⟩ | ⟨-, -, rfl⟩⟩ := directoryRequest_ok hreq
    · have hc := hacc.check
      rw [hcheck] at hc
      cases hc
      simp only [storedRevision, hd, Option.map_some, Option.getD_some] at hlt
      omega
    · exact ⟨_, rfl⟩

/-! ## The account of an identity -/

/-- Linked accounts stay the accounts of their identities. -/
def KeepsIdentity (db db' : Db) : Prop :=
  ∀ u ∈ db.users, u.ssoSubject ≠ "" →
    ∃ u' ∈ db'.users, u'.id = u.id ∧ u'.ssoIssuer = u.ssoIssuer ∧ u'.ssoSubject = u.ssoSubject

theorem KeepsIdentity.of_users (h : db'.users = db.users) : KeepsIdentity db db' := by
  intro u hu _
  exact ⟨u, h ▸ hu, rfl, rfl, rfl⟩

theorem KeepsIdentity.trans {a b c : Db} (h₁ : KeepsIdentity a b) (h₂ : KeepsIdentity b c) : KeepsIdentity a c := by
  intro u hu hne
  obtain ⟨v, hv, hid, hi, hs⟩ := h₁ u hu hne
  obtain ⟨x, hx, hid', hi', hs'⟩ := h₂ v hv (by rw [hs]; exact hne)
  exact ⟨x, hx, hid'.trans hid, hi'.trans hi, hs'.trans hs⟩

theorem KeepsIdentity.insert {u : User} (h : insertUser db u = .ok db') : KeepsIdentity db db' := by
  obtain ⟨-, t, ht, rfl⟩ := insertUser_ok h
  intro x hx _
  exact ⟨x, (Table.mem_insert ht).mpr (Or.inl hx), rfl, rfl, rfl⟩

theorem KeepsIdentity.update {p : User → Prop} [DecidablePred p] {f : User → User}
    (h : db'.users = db.users.update p f) (hf : ∀ u, (f u).id = u.id)
    (hid : ∀ u ∈ db.users, p u → u.ssoSubject ≠ "" → (f u).ssoIssuer = u.ssoIssuer ∧ (f u).ssoSubject = u.ssoSubject) :
    KeepsIdentity db db' := by
  intro u hu hne
  rw [h]
  by_cases hp : p u
  · exact ⟨f u, Table.mem_update_of hu hp hf, hf u, hid u hu hp hne⟩
  · exact ⟨u, Table.mem_update_of_not hu hp, rfl, rfl, rfl⟩

theorem tx_keepsIdentity {w : World} {op : Op} (h : tx cfg w op = .ok db') : KeepsIdentity w.db db' := by
  cases op with
  | createAccount u => exact KeepsIdentity.insert h
  | deliver settings e hash salt =>
    obtain ⟨⟨_, a⟩, hd, rfl⟩ := map_ok.mp h
    obtain ⟨revision, active, -, ⟨-, -, happ⟩ | ⟨-, -, rfl⟩⟩ := directoryRequest_ok hd
    · obtain ⟨db₁, h₁, rfl⟩ := applyDelivery_ok happ
      refine KeepsIdentity.trans (b := db₁) ?_ (KeepsIdentity.of_users (by split <;> rfl))
      rcases syncSingleUser_ok h₁ with ⟨-, -, rfl⟩ | ⟨-, -, hi⟩ | ⟨x, hf, hlink, -, -, rfl⟩
      · exact KeepsIdentity.of_users rfl
      · exact fun u hu hne => KeepsIdentity.insert hi u hu hne
      · refine KeepsIdentity.update (p := fun y => y.id = x.id)
          (f := directoryWrite cfg (withState cfg (withSyncEvent cfg w.db e settings.ssoIssuerUrl w.clock) e
            settings.ssoIssuerUrl revision active w.clock) e.resource settings.ssoIssuerUrl active x)
          rfl (fun _ => rfl) fun u hu hid hne => ?_
        have hx : findAccount cfg w.db settings.ssoIssuerUrl e.resource = some x := hf
        have hux : u = x := Table.eq_of_key hu (Table.get_mem (findAccount_some hx)) hid
        subst hux
        rcases hlink with hnone | ⟨hs, hi⟩
        · exact absurd hnone hne
        · exact ⟨hi.symm, hs.symm⟩
    · exact KeepsIdentity.of_users rfl
  | patchUser s id role status quotaBytes =>
    obtain ⟨-, -, u, -, -, rfl⟩ := patchUser_ok h
    have key : KeepsIdentity w.db { w.db with
        users := w.db.users.update (fun x => x.id = id) fun x =>
          { x with role := role, status := status, quotaBytes := quotaBytes } } :=
      KeepsIdentity.update rfl (fun _ => rfl) fun _ _ _ _ => ⟨rfl, rfl⟩
    exact key.trans (KeepsIdentity.of_users (by simp only; split <;> rfl))
  | grantAdmin userId issuer subject =>
    obtain rfl := grantAdmin_ok h
    exact KeepsIdentity.update rfl (fun _ => rfl) fun _ _ _ _ => ⟨rfl, rfl⟩
  | changePassword s p stored confirmed salt =>
    obtain ⟨-, hn, hw⟩ := changePassword_ok h
    have key : KeepsIdentity w.db (afterChange cfg w.db s p salt w.clock) :=
      KeepsIdentity.update rfl (fun _ => rfl) fun _ _ _ _ => ⟨rfl, rfl⟩
    cases hp : p.wrapped with
    | none =>
      obtain ⟨-, rfl⟩ := hn hp
      exact key
    | some x =>
      obtain ⟨_, _, -, hg⟩ := hw x hp
      obtain ⟨rfl, -⟩ := writeWrap_ok hg
      exact key.trans (KeepsIdentity.of_users rfl)
  | upgradeLogin s p stored salt =>
    obtain ⟨-, -, hn, hw⟩ := upgradeLogin_ok h
    have key : KeepsIdentity w.db (afterUpgrade cfg w.db s p salt) :=
      KeepsIdentity.update rfl (fun _ => rfl) fun _ _ _ _ => ⟨rfl, rfl⟩
    cases hp : p.wrapped with
    | none =>
      obtain rfl := hn hp
      exact key
    | some x =>
      obtain ⟨rfl, -⟩ := writeWrap_ok (hw x hp)
      exact key.trans (KeepsIdentity.of_users rfl)
  | recoverAccount userId p stored nextHash salt =>
    obtain ⟨-, rfl⟩ := recoverAccount_ok h
    exact KeepsIdentity.update rfl (fun _ => rfl) fun _ _ _ _ => ⟨rfl, rfl⟩
  | resetPassword userId secret loginSalt iterations salt =>
    obtain rfl := resetPassword_ok h
    exact KeepsIdentity.update rfl (fun _ => rfl) fun _ _ _ _ => ⟨rfl, rfl⟩
  | _ => exact KeepsIdentity.of_users (tx_frame h (t := .users) (by simp [Op.touches]))

/-- Over every run. -/
theorem identity_kept (cfg : Config) (w : World) (ops : List Op) : KeepsIdentity w.db (reach cfg w ops).db :=
  run_rel (P := fun _ : World => True) (R := fun v w : World => KeepsIdentity v.db w.db) (fun _ _ _ => trivial)
    (fun _ => KeepsIdentity.of_users rfl) (fun _ _ _ h₁ h₂ => h₁.trans h₂)
    (fun v _ _ => step_keeps (P := KeepsIdentity v.db) (fun _ h _ => tx_keepsIdentity h) (KeepsIdentity.of_users rfl))
    ops trivial

/-- An applied delivery gives the account that it matches the identity. -/
theorem applied_identity {e : Delivery} {issuer : String} {revision : Nat} {active : Bool} {new : Fresh} {x : User}
    (hf : findAccount cfg db issuer e.resource = some x)
    (h : applyDelivery cfg db e issuer revision active new now = .ok db') :
    ∃ u ∈ db'.users, u.id = x.id ∧ u.ssoIssuer = issuer ∧ u.ssoSubject = e.resource.id := by
  obtain ⟨db₁, h₁, rfl⟩ := applyDelivery_ok h
  have hx : x ∈ db.users := Table.get_mem (findAccount_some hf)
  rcases syncSingleUser_ok h₁ with ⟨hn, -⟩ | ⟨hn, -⟩ | ⟨y, hy, -, -, -, rfl⟩
  · rw [show findAccount cfg (withState cfg db e issuer revision active now) issuer e.resource = some x from hf] at hn
    cases hn
  · rw [show findAccount cfg (withState cfg db e issuer revision active now) issuer e.resource = some x from hf] at hn
    cases hn
  · rw [show findAccount cfg (withState cfg db e issuer revision active now) issuer e.resource = some x from hf] at hy
    cases hy
    refine ⟨directoryWrite cfg (withState cfg db e issuer revision active now) e.resource issuer active x x, ?_, rfl,
      rfl, rfl⟩
    split <;> exact Table.mem_update_of hx rfl

/-- While the stored row is inactive, its account is disabled and has no credentials. -/
theorem inactive_dismissed {w : World} (hw : Accounts w.db) {d : DirectoryState} (hd : d ∈ w.db.directory)
    (hact : d.active = false) {u : User} (hu : u ∈ w.db.users) (hi : u.ssoIssuer = d.issuer)
    (hs : u.ssoSubject = d.subject) : u.status = .disabled ∧ Dismissed w.db u.id := by
  have hst : u.status = .disabled := hw.denied u hu ⟨d, hd, hi.symm, hs.symm, hact⟩
  exact ⟨hst, hw.dismissed u hu hst⟩

/-- The account that an applied inactive delivery matches stays disabled and without credentials while the row of its
subject is inactive. -/
theorem matched_dismissed {w : World} (hw : Accounts w.db) {settings : Settings} {e : Delivery} {hash salt : String}
    {x : User} (h : directoryRequest cfg w.db settings e ⟨w.next, hash, salt⟩ w.clock = .ok (db', .applied))
    (hf : findAccount cfg w.db settings.ssoIssuerUrl e.resource = some x) (more : List Op)
    (hrow : ∀ d ∈ (reach cfg w (.deliver settings e hash salt :: more)).db.directory,
      d.issuer = settings.ssoIssuerUrl → d.subject = e.resource.id → d.active = false) :
    ∃ u ∈ (reach cfg w (.deliver settings e hash salt :: more)).db.users, u.id = x.id ∧ u.status = .disabled ∧
      Dismissed (reach cfg w (.deliver settings e hash salt :: more)).db u.id := by
  have htx : tx cfg w (.deliver settings e hash salt) = .ok db' := by
    simp only [tx, h]
    rfl
  have hstep : (step cfg w (.deliver settings e hash salt)).db = db' := step_ok htx
  obtain ⟨revision, active, hacc, ⟨-, -, happ⟩ | ⟨-, hne, -⟩⟩ := directoryRequest_ok h
  · have hf' : findAccount cfg (withSyncEvent cfg w.db e settings.ssoIssuerUrl w.clock) settings.ssoIssuerUrl e.resource =
        some x := hf
    obtain ⟨u, hu, hid, hi, hs⟩ := applied_identity hf' happ
    -- the state row is there from the delivery on
    obtain ⟨d', hd', -⟩ : ∃ d', (reach cfg w (.deliver settings e hash salt :: more)).db.directory.get
        (settings.ssoIssuerUrl, e.resource.id) = some d' ∧ True := by
      have hg : db'.directory.get (settings.ssoIssuerUrl, e.resource.id) =
          some (deliveredRow cfg (withSyncEvent cfg w.db e settings.ssoIssuerUrl w.clock) e settings.ssoIssuerUrl revision
            active w.clock) := by
        rw [applyDelivery_directory happ, get_withState, if_pos rfl]
      have hadv := reach_advances cfg (step cfg w (.deliver settings e hash salt)) more
      rw [hstep] at hadv
      obtain ⟨d', hd', -⟩ := hadv _ _ hg
      exact ⟨d', hd', trivial⟩
    obtain ⟨hdm, hk⟩ := Table.get_eq_some.mp hd'
    obtain ⟨hdi, hds⟩ := Prod.mk.inj hk
    have hkept := identity_kept cfg (step cfg w (.deliver settings e hash salt)) more
    rw [hstep] at hkept
    obtain ⟨u', hu', hid', hi', hs'⟩ := hkept u hu (by rw [hs]; exact check_named hacc.check)
    have hdis := inactive_dismissed (reach_accounts cfg (.deliver settings e hash salt :: more) hw) hdm
      (hrow d' hdm hdi hds) hu' (hi'.trans (hi.trans hdi.symm)) (hs'.trans (hs.trans hds.symm))
    exact ⟨u', hu', hid'.trans hid, hdis⟩
  · cases hne

/-- Per issuer and subject, whatever deliveries arrive in whatever order between the other requests: a stored row is that
of the highest accepted revision; revisions and fences never go down; a stale or forked delivery changes no row and a
replay no account; and while the row is inactive its account is disabled, without live sessions or device credentials,
as is from then on the account that the delivery matched. -/
theorem directory_converges (cfg : Config) (ops : List Op) :
    Tracks cfg (reach cfg .init ops).db (history cfg .init ops) ∧
    (∀ more, Advances (reach cfg .init ops).db (reach cfg (reach cfg .init ops) more).db) ∧
    (∀ settings e hash salt revision active, e.resource.check cfg e.kind = some (revision, active) →
      (Stale cfg (reach cfg .init ops).db settings e revision →
        (step cfg (reach cfg .init ops) (.deliver settings e hash salt)).db = (reach cfg .init ops).db) ∧
      (Replay cfg (reach cfg .init ops).db settings e revision →
        ∃ events, (step cfg (reach cfg .init ops) (.deliver settings e hash salt)).db =
          { (reach cfg .init ops).db with syncEvents := events })) ∧
    (∀ d ∈ (reach cfg .init ops).db.directory, d.active = false → ∀ u ∈ (reach cfg .init ops).db.users,
      u.ssoIssuer = d.issuer → u.ssoSubject = d.subject →
      u.status = .disabled ∧ Dismissed (reach cfg .init ops).db u.id) ∧
    (∀ settings e hash salt x db' more,
      directoryRequest cfg (reach cfg .init ops).db settings e ⟨(reach cfg .init ops).next, hash, salt⟩
          (reach cfg .init ops).clock = .ok (db', .applied) →
      findAccount cfg (reach cfg .init ops).db settings.ssoIssuerUrl e.resource = some x →
      let later := (reach cfg (reach cfg .init ops) (.deliver settings e hash salt :: more)).db
      (∀ d ∈ later.directory, d.issuer = settings.ssoIssuerUrl → d.subject = e.resource.id → d.active = false) →
      ∃ u ∈ later.users, u.id = x.id ∧ u.status = .disabled ∧ Dismissed later u.id) := by
  have hacc : Accounts (reach cfg .init ops).db := reach_accounts cfg ops init_accounts
  refine ⟨history_tracks cfg ops, fun more => reach_advances cfg _ more, ?_, ?_, ?_⟩
  · intro settings e hash salt revision active hcheck
    exact ⟨deliver_refused hcheck, deliver_replay hcheck⟩
  · intro d hd hact u hu hi hs
    exact inactive_dismissed hacc hd hact hu hi hs
  · intro settings e hash salt x db' more h hf later hrow
    exact matched_dismissed hacc h hf more hrow

/-- A delivery for the subject `s` whose user name is `eve`. -/
def eveDelivery (event : String) (revision : Nat) (active : Bool) : Delivery :=
  { eventId := event, kind := "user.updated", at' := 0, body := [],
    resource := { schemas := ["urn:ietf:params:scim:schemas:core:2.0:User"], adminRole := false, id := "s",
                  externalId := "s", userName := "eve", active := some active, version := some revision } }

/-- An everyday account that the directory does not know yet. -/
def eveOps : List Op := [.saveSettings Db.init.settings ssoSettings, .createAccount (localAccount 0 "eve" "e" .user .user)]

/-- Eve is dismissed at revision 2; the delivery of revision 1 that arrives later does not bring her back. -/
theorem directory_converges_dismissed :
    let later := (reach plainConfig (reach plainConfig .init eveOps)
      [.deliver ssoSettings (eveDelivery "e2" 2 false) "h" "salt",
        .deliver ssoSettings (eveDelivery "e1" 1 true) "h" "salt"]).db
    ∃ u ∈ later.users, u.id = 1 ∧ u.status = .disabled ∧ Dismissed later u.id :=
  (directory_converges plainConfig eveOps).2.2.2.2 ssoSettings (eveDelivery "e2" 2 false) "h" "salt"
    { localAccount 0 "eve" "e" .user .user with id := 1 } _ [.deliver ssoSettings (eveDelivery "e1" 1 true) "h" "salt"]
    rfl rfl (by decide)

end KyNotes.Auth
