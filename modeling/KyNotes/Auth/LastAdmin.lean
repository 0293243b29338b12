import KyNotes.Auth.Effects

/-!
# The last administrator

* `storedRole_admin`: a delivery takes the grant of an active administrator only beside another one.
* `tx_admin`: no transaction but an inactive delivery takes the last active administrator away.
* `active_admin_kept`: so no run of such transactions does.
-/

namespace KyNotes.Auth

open Relational Check Transition

variable {cfg : Config} {db db' : Db} {now : Time}

/-- Some active account holds the grant. -/
def HasActiveAdmin (db : Db) : Prop := ∃ u ∈ db.users, u.status = .active ∧ u.role = .admin

instance (db : Db) : Decidable (HasActiveAdmin db) := inferInstanceAs (Decidable (∃ u ∈ db.users, _))

/-- A delivery that deactivates its subject. -/
def Op.deactivates : Op → Bool
  | .deliver _ e _ _ => e.resource.active = some false
  | _ => false

theorem HasActiveAdmin.of_users (h : db'.users = db.users) (ha : HasActiveAdmin db) : HasActiveAdmin db' := by
  unfold HasActiveAdmin
  rw [h]
  exact ha

/-- An update that keeps the roles and the statuses keeps the administrators. -/
theorem HasActiveAdmin.update {p : User → Prop} [DecidablePred p] {f : User → User}
    (h : db'.users = db.users.update p f)
    (hf : ∀ u, (f u).id = u.id ∧ (f u).status = u.status ∧ (u.role = .admin → (f u).role = .admin)) (ha : HasActiveAdmin db) : HasActiveAdmin db' := by
  obtain ⟨u, hu, hs, hr⟩ := ha
  have hkey : ∀ u, (f u).id = u.id := fun u => (hf u).1
  unfold HasActiveAdmin
  rw [h]
  by_cases hp : p u
  · exact ⟨f u, Table.mem_update_of hu hp hkey, (hf u).2.1.trans hs, (hf u).2.2 hr⟩
  · exact ⟨u, Table.mem_update_of_not hu hp, hs, hr⟩

/-- An update of one account that leaves another active administrator. -/
theorem HasActiveAdmin.of_other {id : UserId} {f : User → User} (h : db'.users = db.users.update (fun u => u.id = id) f)
    (ho : otherAdmin db id) : HasActiveAdmin db' := by
  obtain ⟨u, hu, hne, hs, hr⟩ := ho
  refine ⟨u, ?_, hs, hr⟩
  rw [h]
  exact Table.mem_update_of_not hu hne

/-- An update of one account to an active administrator. -/
theorem HasActiveAdmin.of_self {u : User} {f : User → User}
    (h : db'.users = db.users.update (fun x => x.id = u.id) f) (hf : ∀ u, (f u).id = u.id) (hu : u ∈ db.users) (hs : (f u).status = .active) (hr : (f u).role = .admin) :
    HasActiveAdmin db' := by
  refine ⟨f u, ?_, hs, hr⟩
  rw [h]
  exact Table.mem_update_of hu rfl hf

theorem setVerifier_admin {userId : UserId} {hash salt : String} {iterations : Nat} {known : User → Bool}
    {recovery : User → String} (ha : HasActiveAdmin db) :
    HasActiveAdmin (setVerifier db userId hash salt iterations known recovery) :=
  HasActiveAdmin.update rfl (fun _ => ⟨rfl, rfl, id⟩) ha

/-- A delivery takes the grant of an active administrator only beside another one. -/
theorem storedRole_admin {x : User} {u : DirectoryUser} (hs : x.status = .active) (hr : x.role = .admin)
    (h : storedRole db x u true ≠ .admin) : otherAdmin db x.id := by
  by_contra ho
  apply h
  unfold storedRole
  by_cases hl : (if u.localRole = .admin ∧ x.accountKind ≠ .admin then UserRole.user else u.localRole) = .admin
  · simp [hl]
  · simp [hl, hs, hr, ho]

theorem syncSingleUser_admin {issuer : String} {u : DirectoryUser} {new : Fresh}
    (h : syncSingleUser cfg db issuer u true new now = .ok db') (ha : HasActiveAdmin db) : HasActiveAdmin db' := by
  rcases syncSingleUser_ok h with ⟨-, hf, -⟩ | ⟨-, -, hi⟩ | ⟨x, hx, -, -, -, rfl⟩
  · cases hf
  · obtain ⟨-, t, ht, rfl⟩ := insertUser_ok hi
    obtain ⟨a, hm, hs, hr⟩ := ha
    exact ⟨a, (Table.mem_insert ht).mpr (Or.inl hm), hs, hr⟩
  · obtain ⟨a, hm, hs, hr⟩ := ha
    by_cases hid : a.id = x.id
    · have hax : a = x := Option.some.inj ((Table.get_of_mem hm).symm.trans (hid ▸ findAccount_some hx))
      subst hax
      by_cases hrole : storedRole db a u true = .admin
      · exact HasActiveAdmin.of_self rfl (fun _ => rfl) hm rfl hrole
      · exact HasActiveAdmin.of_other rfl (storedRole_admin hs hr hrole)
    · exact HasActiveAdmin.of_other rfl ⟨a, hm, hid, hs, hr⟩

theorem check_active {u : DirectoryUser} {kind : String} {revision : Nat} {active : Bool}
    (h : u.check cfg kind = some (revision, active)) : u.active = some active := by
  unfold DirectoryUser.check at h
  split at h
  · rename_i n a hn ha
    split at h
    · cases h
      exact ha
    · cases h
  · cases h

/-- No transaction but an inactive delivery takes the last active administrator away. -/
theorem tx_admin {w : World} {op : Op} (hop : op.deactivates = false) (h : tx cfg w op = .ok db')
    (ha : HasActiveAdmin w.db) : HasActiveAdmin db' := by
  cases op with
  | createAccount u =>
    obtain ⟨-, t, ht, rfl⟩ := insertUser_ok h
    obtain ⟨a, hm, hs, hr⟩ := ha
    exact ⟨a, (Table.mem_insert ht).mpr (Or.inl hm), hs, hr⟩
  | deliver settings e hash salt =>
    obtain ⟨⟨_, a⟩, hd, rfl⟩ := map_ok.mp h
    obtain ⟨revision, active, hacc, ⟨-, -, happ⟩ | ⟨-, -, rfl⟩⟩ := directoryRequest_ok hd
    · have hact := check_active hacc.check
      have : active = true := by
        cases active with
        | true => rfl
        | false => simp [Op.deactivates, hact] at hop
      subst this
      obtain ⟨db₁, h₁, rfl⟩ := applyDelivery_ok happ
      exact syncSingleUser_admin h₁ (ha.of_users rfl)
    · exact ha.of_users rfl
  | patchUser s id role status quotaBytes =>
    obtain ⟨⟨caller, hc, hact, hadmin⟩, hself, u, hu, -, rfl⟩ := patchUser_ok h
    obtain ⟨hcm, hcid⟩ := Table.get_eq_some.mp hc
    obtain ⟨hum, huid⟩ := Table.get_eq_some.mp hu
    -- the caller is an active administrator in the state that the edit commits against
    have key : HasActiveAdmin { w.db with
        users := w.db.users.update (fun x => x.id = id) fun x =>
          { x with role := role, status := status, quotaBytes := quotaBytes } } := by
      by_cases hid : id = s.userId
      · obtain ⟨hrole, hstatus⟩ := hself hid
        subst huid
        exact HasActiveAdmin.of_self rfl (fun _ => rfl) hum hstatus hrole
      · exact HasActiveAdmin.of_other rfl ⟨caller, hcm, fun he => hid (he.symm.trans hcid), hact, hadmin⟩
    simp only
    split
    · exact key.of_users rfl
    · exact key
  | grantAdmin userId issuer subject =>
    obtain rfl := grantAdmin_ok h
    exact HasActiveAdmin.update rfl (fun _ => ⟨rfl, rfl, fun _ => rfl⟩) ha
  | changePassword s p stored confirmed salt =>
    obtain ⟨-, hn, hw⟩ := changePassword_ok h
    have key : HasActiveAdmin (afterChange cfg w.db s p salt w.clock) := (setVerifier_admin ha).of_users rfl
    cases hp : p.wrapped with
    | none =>
      obtain ⟨-, rfl⟩ := hn hp
      exact key
    | some x =>
      obtain ⟨_, _, -, hg⟩ := hw x hp
      obtain ⟨rfl, -⟩ := writeWrap_ok hg
      exact key.of_users rfl
  | upgradeLogin s p stored salt =>
    obtain ⟨-, -, hn, hw⟩ := upgradeLogin_ok h
    have key : HasActiveAdmin (afterUpgrade cfg w.db s p salt) := setVerifier_admin ha
    cases hp : p.wrapped with
    | none =>
      obtain rfl := hn hp
      exact key
    | some x =>
      obtain ⟨rfl, -⟩ := writeWrap_ok (hw x hp)
      exact key.of_users rfl
  | recoverAccount userId p stored nextHash salt =>
    obtain ⟨-, rfl⟩ := recoverAccount_ok h
    exact (setVerifier_admin ha).of_users rfl
  | resetPassword userId secret loginSalt iterations salt =>
    obtain rfl := resetPassword_ok h
    exact (setVerifier_admin ha).of_users rfl
  | _ => exact ha.of_users (tx_frame h (t := .users) (by simp [Op.touches]))

/-- However administrators edit accounts, themselves and each other, and whatever roles the directory delivers to active
subjects, an active administrator stays. -/
theorem active_admin_kept (cfg : Config) (w : World) (ops : List Op) (hops : ∀ op ∈ ops, op.deactivates = false)
    (hw : HasActiveAdmin w.db) : HasActiveAdmin (reach cfg w ops).db := by
  induction ops generalizing w with
  | nil => exact hw
  | cons op ops ih =>
    refine ih (step cfg w op) (fun o ho => hops o (List.mem_cons_of_mem _ ho)) ?_
    exact step_keeps (fun db h => tx_admin (hops op List.mem_cons_self) h) hw

/-- Two administrators, each signed in. -/
def twoAdmins : World :=
  { World.init with
    next := 10
    db := { Db.init with
      users := ⟨[localAccount 1 "ada" "a" .admin .admin, localAccount 2 "bob" "b" .admin .admin], by decide⟩
      sessions := ⟨[prepareSession 3 1 0, prepareSession 4 2 0], by decide⟩ } }

/-- They demote and disable each other; the second is refused. -/
theorem active_admin_kept_race :
    HasActiveAdmin (reach plainConfig twoAdmins
      [.patchUser (sessionOf 3 (localAccount 1 "ada" "a" .admin .admin)) 2 .user .active 0,
        .patchUser (sessionOf 4 (localAccount 2 "bob" "b" .admin .admin)) 1 .admin .disabled 0]).db :=
  active_admin_kept plainConfig twoAdmins _ (by decide) (by decide)

end KyNotes.Auth
