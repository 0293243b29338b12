import KyNotes.Keys.Owners

/-!
# Editing authority at commit

A page deletion, an attachment link and an attachment unlink read the caller's role once, before their statements. What
they found stays true (`keyTx_stays`) until the caller is removed; `editing_authority`: where no removal finds such a
request of its target in flight, every one of them commits for a member that may edit.
-/

namespace KyNotes

open Relational Check Transition

variable {cfg : Config} {w : World} {op : Op} {k k' : KeyTables} {u : UserId} {cid : ContainerId}

/-! ## Requests past their check -/

/-- The caller and the container of a page deletion, a link or an unlink that has read the caller's role. -/
def Job.edits : Job → Option (UserId × ContainerId)
  | .deleteObject u _ (.tx cid) | .link u _ _ _ (.tx cid) | .unlink u _ _ (.tx cid) => some (u, cid)
  | _ => none

/-- A live member of the container with a role that may edit. -/
def MayEdit (k : KeyTables) (u : UserId) (cid : ContainerId) : Prop :=
  ∃ role, liveRole k cid u = some role ∧ canEdit role

instance (k : KeyTables) (u : UserId) (cid : ContainerId) : Decidable (MayEdit k u cid) :=
  match h : liveRole k cid u with
  | none => .isFalse (by rintro ⟨role, hr, -⟩; rw [h] at hr; cases hr)
  | some role => decidable_of_iff (canEdit role) ⟨fun hc => ⟨role, h, hc⟩, by
      rintro ⟨r, hr, hc⟩
      rw [h] at hr
      cases hr
      exact hc⟩

/-- The next action of the request commits a page deletion, a link or an unlink of the user in the container. -/
def Commits (w : World) (rid : RequestId) (u : UserId) (cid : ContainerId) : Prop :=
  (∃ oid, w.job rid = some (.deleteObject u oid (.tx cid))) ∨
    (∃ oid att version p, w.job rid = some (.link u oid att version (.tx cid)) ∧
      linkTx w.pages cid oid att version = .ok p) ∨
    ∃ oid att, w.job rid = some (.unlink u oid att (.tx cid))

theorem Commits.edits {rid : RequestId} (h : Commits w rid u cid) :
    ∃ f ∈ w.inflight, f.job.edits = some (u, cid) := by
  rcases h with ⟨oid, hj⟩ | ⟨oid, att, version, p, hj, -⟩ | ⟨oid, att, hj⟩
  · exact ⟨_, World.job_mem hj, rfl⟩
  · exact ⟨_, World.job_mem hj, rfl⟩
  · exact ⟨_, World.job_mem hj, rfl⟩

/-- No request of the user past its check is on a container that a removal from `cid` reaches. -/
def NotEditing (w : World) (cid : ContainerId) (target : UserId) : Prop :=
  ∀ f ∈ w.inflight, ∀ x, f.job.edits = some (target, x) → ¬(x = cid ∨ InScope w.keys cid x)

/-- The operation removes nobody with a page deletion, a link or an unlink in flight there. -/
def LetsFinish (w : World) : Op → Prop
  | .key (.removeMember caller cid target) => MayRemove w.keys caller cid target → NotEditing w cid target
  | .key (.adminRemoveMember cid target) => Removable w.keys cid target → NotEditing w cid target
  | _ => True

/-! ## What a request found stays true -/

/-- A live and approved member with a role that may edit. -/
def EditorOf (k : KeyTables) (u : UserId) (cid : ContainerId) : Prop :=
  ∃ m ∈ k.memberships, m.containerId = cid ∧ m.userId = u ∧ m.revokedAt = none ∧ m.approved = true ∧ canEdit m.role

theorem EditorOf.mayEdit (h : EditorOf k u cid) : MayEdit k u cid := by
  obtain ⟨m, hm, rfl, rfl, hl, -, hr⟩ := h
  refine ⟨m.role, ?_, hr⟩
  have hget : k.memberships.get (m.containerId, m.userId) = some m := Table.get_of_mem hm
  simp [liveRole, liveMember, hget, hl]

/-- An unapproved member is a viewer, who may not edit. -/
theorem MayEdit.editorOf (hi : MemberInv k) (h : MayEdit k u cid) : EditorOf k u cid := by
  obtain ⟨role, hr, he⟩ := h
  obtain ⟨m, hm, rfl⟩ := Option.map_eq_some_iff.mp hr
  obtain ⟨hget, hl⟩ := liveMember_some hm
  have hkey := Table.get_key hget
  simp only [Membership.key, Prod.mk.injEq] at hkey
  refine ⟨m, Table.get_mem hget, hkey.1, hkey.2, hl, ?_, he⟩
  cases ha : m.approved with
  | true => rfl
  | false =>
    rw [hi.viewer m (Table.get_mem hget) ha] at he
    cases he

theorem editableObject_mayEdit {db : DB} {oid : ObjectId} {o : Object} (h : editableObject db oid u = .ok o) :
    MayEdit db.keys u o.containerId := by
  simp only [editableObject, bind_ok, fetch_ok, require_ok, pure_ok] at h
  obtain ⟨⟨o', role⟩, ho, _, hr, rfl⟩ := h
  obtain ⟨x, -, hx⟩ := Option.bind_eq_some_iff.mp ho
  obtain ⟨role', hrole, heq⟩ := Option.map_eq_some_iff.mp hx
  cases heq
  exact ⟨role, hrole, hr⟩

/-- An editor stays one, unless the operation removes the member. -/
theorem EditorOf.step (h : EditorOf w.keys u cid) (hd : ∀ kop, op = .key kop → ¬∃ k', keyTx kop w.keys w.store.next
    w.store.clock = .ok k' ∧ kop.Drops w.keys u cid) : EditorOf (w.next cfg op).keys u cid := by
  have hc := step_keys cfg w op
  generalize (w.next cfg op).keys = k' at hc
  cases hc with
  | same => exact h
  | delete => exact h
  | purge => exact h
  | @tx kop k' hx =>
    obtain ⟨m, hm, rfl, rfl, hl, ha, hr⟩ := h
    rcases keyTx_stays hx hm hl with hdrop | ⟨m', hm', hs⟩
    · exact absurd ⟨k', hx, hdrop⟩ (hd kop rfl)
    · obtain ⟨ha', hr'⟩ := hs.approved ha
      exact ⟨m', hm', hs.container, hs.user, hs.live, ha', by rw [hr']; exact hr⟩

/-- What every such request in flight has found, and nobody has taken from it. -/
def EditorInv (w : World) : Prop := ∀ f ∈ w.inflight, ∀ u cid, f.job.edits = some (u, cid) → EditorOf w.keys u cid

/-- Such a request goes on from the read of the caller's role. -/
theorem Moves.edits {s s' : Store} {j j' : Job} (hm : Moves cfg s j j' s') (he : j'.edits = some (u, cid)) :
    ∃ oid o, editableObject s.db oid u = .ok o ∧ o.containerId = cid := by
  cases hm with
  | delete hx => cases he; exact ⟨_, _, hx, rfl⟩
  | link hx => cases he; exact ⟨_, _, hx, rfl⟩
  | unlink hx => cases he; exact ⟨_, _, hx, rfl⟩
  | putAdmit | putCheck | putPlace | comment | startAdmit | startTx | patchAdmit | patchLock | patchDoom | patchRead
  | patchAppend | cancelAdmit | cancelAbort | finalizeRead | finalizeCharge | finalizeDoom | finalizeAdmit
  | finalizeHash | finalizePlace | finalizeCite | gc => cases he

theorem LetsFinish.not_drops (hp : LetsFinish w op) {f : InFlight} (hf : f ∈ w.inflight)
    (he : f.job.edits = some (u, cid)) (kop : KeyOp) (hop : op = .key kop) :
    ¬∃ k', keyTx kop w.keys w.store.next w.store.clock = .ok k' ∧ kop.Drops w.keys u cid := by
  rintro ⟨k', hx, hd⟩
  subst hop
  cases kop
  case removeMember caller x target =>
    obtain ⟨rfl, hs⟩ := hd
    have hmay : MayRemove w.keys caller x target := by
      refine (mayRemove_iff w.store.now).mpr ?_
      obtain ⟨-, rfl⟩ := removeMemberTx_ok (removeMember_ok hx)
      exact hx
    exact hp hmay f hf cid he hs
  case adminRemoveMember x target =>
    obtain ⟨rfl, hs⟩ := hd
    obtain ⟨hmay, -⟩ := removeMemberTx_ok hx
    exact hp hmay f hf cid he hs
  all_goals exact absurd hd not_false

theorem step_editorInv (hm : MemberInv w.keys) (h : EditorInv w) (hp : LetsFinish w op) :
    EditorInv (w.next cfg op) := by
  intro f hf u cid he
  rcases mem_inflight_moves hf with ⟨hf, -⟩ | ⟨r, hr, -⟩ | ⟨j, hop, -, hmove⟩
  · exact (h f hf u cid he).step (hp.not_drops hf he)
  · rw [hr] at he
    cases r <;> cases he
  · obtain ⟨oid, o, ho, rfl⟩ := hmove.edits he
    refine ((editableObject_mayEdit ho).editorOf hm).step fun kop hk => ?_
    rw [hop] at hk
    cases hk

/-- **Editing authority holds at commit.** In every run in which no removal finds a page deletion, an attachment link or
an attachment unlink of its target in flight past its check, each of them that commits does so for a live member of the
container that may edit. -/
theorem editing_authority (cfg : Config) (ops : List Op) (h : Along (World.next cfg) LetsFinish .init ops) (bs : List Op)
    (rid : RequestId) (hb : bs ++ [.resume rid] <+: ops) (u : UserId) (cid : ContainerId)
    (hc : Commits (World.reach cfg bs) rid u cid) : MayEdit (World.reach cfg bs).keys u cid := by
  have hinv : (KeyInv (World.reach cfg bs).keys ∧ MemberInv (World.reach cfg bs).keys) ∧ EditorInv (World.reach cfg bs) := by
    obtain ⟨cs, rfl⟩ := hb
    rw [List.append_assoc] at h
    refine run_inv_of (P := fun w : World => (KeyInv w.keys ∧ MemberInv w.keys) ∧ EditorInv w) ?_
      (along_append.mp h).1 ⟨⟨init_keyInv, init_memberInv⟩, fun _ h => absurd h (Table.not_mem_empty _)⟩
    rintro w op ⟨⟨hk, hm⟩, he⟩ hp
    exact ⟨⟨step_keyInv cfg w op hk, (step_keys cfg w op).memberInv hk hm⟩, step_editorInv hm he hp⟩
  obtain ⟨f, hf, he⟩ := hc.edits
  exact (hinv.2 f hf u cid he).mayEdit

/-- User 1 joins notebook 2 of user 0 as an editor, and asks for the deletion of page 5. -/
def editorDeletes : List Op :=
  [.key (.createUser .user .active), .key (.createUser .user .active), .key (.createContainer 0 .workbook none),
   .key (.invite 0 true 2 1 .editor 7 []), .key (.accept 1 3 7), .createObject 0 2, .arrive (.deleteObject 1 5),
   .resume 6]

/-- The deletion commits at once. -/
theorem editing_authority_delete : MayEdit (World.reach sampleConfig editorDeletes).keys 1 2 :=
  editing_authority sampleConfig (editorDeletes ++ [.resume 6])
    (by simp [editorDeletes, Along, LetsFinish]) editorDeletes 6 ⟨[], rfl⟩ 1 2 (Or.inl ⟨5, by decide +kernel⟩)

/-- The deletion commits after the removal of its caller. -/
theorem removedEditor_deletes :
    Commits (World.reach sampleConfig (editorDeletes ++ [.key (.removeMember 0 2 1)])) 6 1 2 ∧
      ¬MayEdit (World.reach sampleConfig (editorDeletes ++ [.key (.removeMember 0 2 1)])).keys 1 2 :=
  ⟨Or.inl ⟨5, by decide +kernel⟩, by decide +kernel⟩

end KyNotes
