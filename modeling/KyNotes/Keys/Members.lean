import KyNotes.Keys.Law

/-!
# What the key operations do to memberships and to the rows of containers

* `keyTx_members`: the ways an operation changes the memberships and the containers; what follows is by cases on them.
* `keyTx_stays`: a live membership stays live, and keeps its role once approved, unless the operation removes the member
  (`KeyOp.Drops`).
* `keyTx_container`: a container after an operation was there with the same kind and team, and with the same owner unless
  a removal from its team hands it over, or it has just been created with its memberships (`Created`).
* `MemberInv`: an unapproved member is a viewer, and a membership has its container.
-/

namespace KyNotes

open Relational Check Transition

variable {k k' : KeyTables} {op : KeyOp} {id : Nat} {clock : Time}

/-! ## Rows that stay -/

/-- The operation removes the user from the container. -/
def KeyOp.Drops (op : KeyOp) (k : KeyTables) (u : UserId) (x : ContainerId) : Prop :=
  match op with
  | .removeMember _ cid target | .adminRemoveMember cid target => target = u ∧ (x = cid ∨ InScope k cid x)
  | _ => False

/-- A live membership as it may go on. -/
structure Stays (m m' : Membership) : Prop where
  container : m'.containerId = m.containerId
  user : m'.userId = m.userId
  live : m'.revokedAt = none
  approved : m.approved = true → m'.approved = true ∧ m'.role = m.role

theorem Stays.refl {m : Membership} (h : m.revokedAt = none) : Stays m m := ⟨rfl, rfl, h, fun ha => ⟨ha, rfl⟩⟩

/-- Every live membership stays. -/
def Keeps (k k' : KeyTables) : Prop := ∀ m ∈ k.memberships, m.revokedAt = none → ∃ m' ∈ k'.memberships, Stays m m'

theorem Keeps.of_eq (h : k'.memberships = k.memberships) : Keeps k k' :=
  fun m hm hl => ⟨m, by rw [h]; exact hm, .refl hl⟩

theorem Keeps.insertAll {rs : List Membership} : Keeps k { k with memberships := k.memberships.insertAll rs } :=
  fun m hm hl => ⟨m, Table.get_mem (Table.get_insertAll_of_some (Table.get_of_mem hm)), .refl hl⟩

theorem createRoot_keeps {kind : Kind} {u : UserId} (h : createRoot k id kind u = .ok k') : Keeps k k' := by
  simp only [createRoot, bind_ok, fetch_ok, pure_ok] at h
  obtain ⟨_, -, t, -, m, hm, rfl⟩ := h
  exact fun x hx hl => ⟨x, (Table.mem_insert hm).mpr (Or.inl hx), .refl hl⟩

theorem createChild_keeps {kind : Kind} {u : UserId} {team : ContainerId} (h : createChild k id kind u team = .ok k') :
    Keeps k k' := by
  simp only [createChild, bind_ok, require_ok, fetch_ok, pure_ok] at h
  obtain ⟨_, -, _, -, _, -, _, -, _, -, t, -, rfl⟩ := h
  exact Keeps.insertAll (k := { k with containers := t })

/-- An admission hits no live row: it is refused when there is one. -/
theorem admitMemberTx_keeps {cid : ContainerId} {u : UserId} {role : Role} {by' : Option UserId} {approved : Bool}
    (h : admitMemberTx k cid u role by' approved = .ok k') : Keeps k k' := by
  simp only [admitMemberTx, bind_ok, require_ok, pure_ok] at h
  obtain ⟨_, hnone, rfl⟩ := h
  intro m hm hl
  refine Keeps.insertAll (k := { k with memberships := _ }) m (Table.mem_update_of_not hm ?_) hl
  rintro ⟨hu, c, hc, hcm, hs, -⟩
  exact hnone ⟨m, hm, hu, hl, c, hc, hcm, hs⟩

theorem approveMember_keeps {caller : UserId} {cid : ContainerId} {target : UserId}
    (h : approveMember k caller cid target = .ok k') : Keeps k k' := by
  simp only [approveMember, bind_ok, require_ok, fetch_ok, pure_ok] at h
  obtain ⟨_, -, _, -, _, -, _, -, rfl⟩ := h
  intro m hm hl
  by_cases hp : m.userId = target ∧ m.revokedAt = none ∧ InLiveScope k cid m.containerId
  · refine ⟨_, Table.mem_update_of hm hp, rfl, rfl, hl, fun ha => ⟨rfl, ?_⟩⟩
    simp only [ha, if_true]
  · exact ⟨m, Table.mem_update_of_not hm hp, .refl hl⟩

/-- The checks of a removal. -/
theorem removeMemberTx_ok {cid : ContainerId} {target : UserId} {now : Stamp}
    (h : removeMemberTx k cid target now = .ok k') :
    (∃ m, liveMember k cid target = some m ∧ m.role ≠ .owner) ∧ k' = revokeMember k cid target now := by
  simp only [removeMemberTx, bind_ok, require_ok, fetch_ok, pure_ok] at h
  obtain ⟨m, hm, _, hr, rfl⟩ := h
  exact ⟨⟨m, hm, hr⟩, rfl⟩

theorem removeMember_ok {caller : UserId} {cid : ContainerId} {target : UserId} {now : Stamp}
    (h : removeMember k caller cid target now = .ok k') : removeMemberTx k cid target now = .ok k' := by
  simp only [removeMember, bind_ok, require_ok, fetch_ok] at h
  obtain ⟨_, -, _, -, _, -, _, -, _, -, h⟩ := h
  exact h

theorem mem_revokeMember {cid : ContainerId} {target : UserId} {now : Stamp} {m' : Membership}
    (h : m' ∈ (revokeMember k cid target now).memberships) : ∃ m ∈ k.memberships, m'.containerId = m.containerId ∧
      m'.userId = m.userId ∧ m'.role = m.role ∧ m'.approved = m.approved := by
  rcases Table.mem_update_cases h with ⟨h, -⟩ | ⟨m, hm, -, rfl⟩
  · exact ⟨m', h, rfl, rfl, rfl, rfl⟩
  · exact ⟨m, hm, rfl, rfl, rfl, rfl⟩

/-- A removal revokes the rows of the member in scope. -/
theorem revokeMember_stays (cid : ContainerId) (target : UserId) (now : Stamp) {m : Membership}
    (hm : m ∈ k.memberships) (hn : ¬(m.userId = target ∧ (m.containerId = cid ∨ InScope k cid m.containerId))) :
    m ∈ (revokeMember k cid target now).memberships :=
  Table.mem_update_of_not hm fun h => hn ⟨h.2.1, h.1⟩

/-- What the loops over envelopes leave alone. -/
structure SameMembers (k k' : KeyTables) : Prop where
  memberships : k'.memberships = k.memberships
  containers : k'.containers = k.containers
  users : k'.users = k.users
  devices : k'.devices = k.devices

theorem SameMembers.refl (k : KeyTables) : SameMembers k k := ⟨rfl, rfl, rfl, rfl⟩

theorem SameMembers.trans {k₁ : KeyTables} (h : SameMembers k k₁) (h' : SameMembers k₁ k') : SameMembers k k' :=
  ⟨h'.memberships.trans h.memberships, h'.containers.trans h.containers, h'.users.trans h.users,
    h'.devices.trans h.devices⟩

theorem insertEnvelopeTx_same {cid : ContainerId} {g : Nat} {caller : UserId} {role : Role} {v : EnvelopeIn}
    (h : insertEnvelopeTx cid g caller role k v = .ok k') : SameMembers k k' := by
  obtain ⟨t, rfl, -⟩ := insertEnvelopeTx_spec h
  exact ⟨rfl, rfl, rfl, rfl⟩

theorem putEnvelopes_same {caller : UserId} {stepUp : Bool} {cid : ContainerId} {vs : List EnvelopeIn}
    (h : putEnvelopes k caller stepUp cid vs = .ok k') : SameMembers k k' := by
  simp only [putEnvelopes, bind_ok, require_ok] at h
  obtain ⟨_, -, ⟨role, g⟩, -, h⟩ := h
  refine forEach_inv (P := SameMembers k) ?_ (.refl k) h
  intro k₁ v k₂ h₁ hv
  simp only [putEnvelopeTx, bind_ok] at hv
  obtain ⟨_, -, hv⟩ := hv
  exact h₁.trans (insertEnvelopeTx_same hv)

/-- A rotation, but for what is parked: the next generation, and the loop. -/
theorem rotateKeys_ok {caller : UserId} {stepUp : Bool} {cid : ContainerId} {expected : Nat} {vs : List EnvelopeIn}
    {next : Nat} (h : rotateKeys k caller stepUp cid expected vs = .ok (k', next)) :
    ∃ role c k₁, k.containers.get cid = some c ∧ c.keyGeneration = expected ∧ next = expected + 1 ∧
      forEach (rotationEnvelopeTx cid next caller role) (mintGeneration k cid) vs = .ok k₁ ∧
      SameMembers (mintGeneration k cid) k₁ ∧ k'.keyEnvelopes = k₁.keyEnvelopes ∧ SameMembers k₁ k' ∧
      ¬Uncovered k' cid next ∧
      k'.invitationEnvelopes = k₁.invitationEnvelopes.delete (fun e => e.containerId = cid ∧ e.keyGeneration < next) := by
  simp only [rotateKeys, bind_ok, require_ok, fetch_ok, pure_ok, Prod.mk.injEq] at h
  obtain ⟨_, -, _, -, ⟨role, g⟩, -, _, -, c, hc, k₁, hl, _, ⟨hu, -⟩, rfl, rfl⟩ := h
  obtain ⟨hget, hgen⟩ := Option.filter_eq_some_iff.mp hc
  have hgen : c.keyGeneration = expected := by simpa using hgen
  refine ⟨role, c, k₁, hget, hgen, by rw [hgen], hl, ?_, rfl, ⟨rfl, rfl, rfl, rfl⟩, hu, rfl⟩
  refine forEach_inv (P := SameMembers (mintGeneration k cid)) ?_ (.refl _) hl
  intro k₂ v k₃ h₂ hv
  exact h₂.trans (insertEnvelopeTx_same (rotationEnvelopeTx_ok hv))

theorem insertInvitationEnvelopeTx_same {i : InvitationId} {cid : ContainerId} {inviter invitee : UserId}
    {v : InvitationEnvelopeIn} (h : insertInvitationEnvelopeTx i cid inviter invitee k v = .ok k') :
    SameMembers k k' ∧ k'.keyEnvelopes = k.keyEnvelopes := by
  simp only [insertInvitationEnvelopeTx, bind_ok, require_ok, fetch_ok, pure_ok] at h
  obtain ⟨_, -, _, -, _, -, _, -, _, -, _, -, _, -, t, -, rfl⟩ := h
  exact ⟨⟨rfl, rfl, rfl, rfl⟩, rfl⟩

theorem invite_same {inviter : UserId} {stepUp : Bool} {cid : ContainerId} {invitee : UserId} {role : Role}
    {token : Nat} {vs : List InvitationEnvelopeIn} (h : invite k inviter stepUp id cid invitee role token vs clock = .ok k') :
    SameMembers k k' ∧ k'.keyEnvelopes = k.keyEnvelopes := by
  simp only [invite, bind_ok, require_ok, fetch_ok] at h
  obtain ⟨_, -, _, -, _, -, _, -, t, -, h⟩ := h
  have hloop := forEach_inv (P := fun k₁ => SameMembers { k with invitations := t } k₁ ∧
    k₁.keyEnvelopes = k.keyEnvelopes) ?_ ⟨.refl _, rfl⟩ h
  · exact ⟨⟨hloop.1.memberships, hloop.1.containers, hloop.1.users, hloop.1.devices⟩, hloop.2⟩
  · rintro k₁ v k₂ ⟨h₁, he₁⟩ hv
    obtain ⟨h₂, he₂⟩ := insertInvitationEnvelopeTx_same hv
    exact ⟨h₁.trans h₂, he₂.trans he₁⟩

/-- An acceptance: the admission, and the move of what was parked. -/
theorem accept_ok {u : UserId} {i : InvitationId} {token : Nat} {now : Stamp} (h : accept k u i token now = .ok k') :
    ∃ x ∈ k.invitations, x.id = i ∧ ∃ t k₂,
      admitMemberTx { k with invitations := t } x.containerId u x.role (some x.inviterId) true = .ok k₂ ∧
        k' = moveInvitationEnvelopesTx k₂ i u := by
  simp only [accept, bind_ok, require_ok, fetch_ok, pure_ok] at h
  obtain ⟨x, hx, m, -, _, -, k₂, hk₂, rfl⟩ := h
  obtain ⟨hg, -⟩ := Option.filter_eq_some_iff.mp hx
  exact ⟨x, Table.get_mem hg, Table.get_key hg, _, k₂, hk₂, rfl⟩

theorem removeMemberTx_keeps {cid : ContainerId} {target : UserId} {now : Stamp}
    (h : removeMemberTx k cid target now = .ok k') {m : Membership} (hm : m ∈ k.memberships) (hl : m.revokedAt = none) :
    (target = m.userId ∧ (m.containerId = cid ∨ InScope k cid m.containerId)) ∨ ∃ m' ∈ k'.memberships, Stays m m' := by
  obtain ⟨-, rfl⟩ := removeMemberTx_ok h
  by_cases hp : m.userId = target ∧ (m.containerId = cid ∨ InScope k cid m.containerId)
  · exact Or.inl ⟨hp.1.symm, hp.2⟩
  · exact Or.inr ⟨m, revokeMember_stays cid target now hm hp, .refl hl⟩

/-! ## Memberships and their containers -/

/-- An unapproved member is a viewer, and a membership has its container. -/
structure MemberInv (k : KeyTables) : Prop where
  viewer : ∀ m ∈ k.memberships, m.approved = false → m.role = .viewer
  container : ∀ m ∈ k.memberships, ∃ c ∈ k.containers, c.id = m.containerId

/-- A container before and after. -/
structure SameNotebook (c c' : Container) : Prop where
  id : c'.id = c.id
  kind : c'.kind = c.kind
  team : c'.teamId = c.teamId
  live : c'.deletedAt = none → c.deletedAt = none

theorem SameNotebook.refl (c : Container) : SameNotebook c c := ⟨rfl, rfl, rfl, fun h => h⟩

/-- Every container after was there before, with the same owner, and none is gone. -/
structure SameContainers (k k' : KeyTables) : Prop where
  origin : ∀ c' ∈ k'.containers, ∃ c ∈ k.containers, SameNotebook c c' ∧ c'.ownerUserId = c.ownerUserId
  kept : ∀ c ∈ k.containers, ∃ c' ∈ k'.containers, c'.id = c.id

theorem SameContainers.of_eq (h : k'.containers = k.containers) : SameContainers k k' :=
  ⟨fun c' hc' => ⟨c', by rw [← h]; exact hc', .refl c', rfl⟩, fun c hc => ⟨c, by rw [h]; exact hc, rfl⟩⟩

theorem SameContainers.update {p : Container → Prop} [DecidablePred p] {f : Container → Container}
    (h : k'.containers = k.containers.update p f) (hf : ∀ c, SameNotebook c (f c))
    (ho : ∀ c, (f c).ownerUserId = c.ownerUserId) : SameContainers k k' := by
  constructor
  · intro c' hc'
    rw [h] at hc'
    rcases Table.mem_update_cases hc' (fun c => (hf c).id) with ⟨hc', -⟩ | ⟨c, hc, -, rfl⟩
    · exact ⟨c', hc', .refl c', rfl⟩
    · exact ⟨c, hc, hf c, ho c⟩
  · intro c hc
    rw [h]
    by_cases hp : p c
    · exact ⟨f c, Table.mem_update_of hc hp (fun c => (hf c).id), (hf c).id⟩
    · exact ⟨c, Table.mem_update_of_not hc hp, rfl⟩

/-- The operation removes the owner of the container from its team. -/
def KeyOp.HandsOver (op : KeyOp) (k : KeyTables) (c : Container) : Prop :=
  match op with
  | .removeMember _ cid target | .adminRemoveMember cid target =>
    c.teamId = some cid ∧ c.ownerUserId = target ∧ ∃ t ∈ k.containers, t.id = cid
  | _ => False

/-- The owner of a container after an operation: its team's when the operation hands it over. -/
def OwnerAfter (op : KeyOp) (k : KeyTables) (c c' : Container) : Prop :=
  (¬op.HandsOver k c ∧ c'.ownerUserId = c.ownerUserId) ∨
    (op.HandsOver k c ∧ ∃ t ∈ k.containers, c.teamId = some t.id ∧ c'.ownerUserId = t.ownerUserId)

/-- The user is a live and approved owner of the container. -/
def OwnerIn (k : KeyTables) (u : UserId) (cid : ContainerId) : Prop :=
  ∃ m ∈ k.memberships, m.containerId = cid ∧ m.userId = u ∧ m.revokedAt = none ∧ m.role = .owner ∧ m.approved = true

/-- The user has a live membership of the container. -/
def MemberOf (k : KeyTables) (u : UserId) (cid : ContainerId) : Prop :=
  ∃ m ∈ k.memberships, m.containerId = cid ∧ m.userId = u ∧ m.revokedAt = none

instance (k : KeyTables) (u : UserId) (cid : ContainerId) : Decidable (MemberOf k u cid) :=
  inferInstanceAs (Decidable (∃ m ∈ k.memberships, m.containerId = cid ∧ m.userId = u ∧ m.revokedAt = none))

theorem OwnerIn.member {u : UserId} {cid : ContainerId} (h : OwnerIn k u cid) : MemberOf k u cid := by
  obtain ⟨m, hm, hc, hu, hl, -⟩ := h
  exact ⟨m, hm, hc, hu, hl⟩

/-- A new container: its creator owns it, or it is a team's notebook with copies of the team's live memberships, the
creator's among them. -/
structure Created (k k' : KeyTables) (c' : Container) : Prop where
  fresh : k.containers.get c'.id = none
  members : (c'.teamId = none ∧ OwnerIn k' c'.ownerUserId c'.id) ∨
    ∃ t ∈ k.containers, c'.teamId = some t.id ∧ t.kind = .team ∧ c'.kind ≠ .team ∧ MemberOf k c'.ownerUserId t.id ∧
      ∀ m ∈ k.memberships, m.containerId = t.id → m.revokedAt = none → { m with containerId := c'.id } ∈ k'.memberships

theorem createRoot_container {kind : Kind} {u : UserId} (h : createRoot k id kind u = .ok k') {c' : Container}
    (hc' : c' ∈ k'.containers) : c' ∈ k.containers ∨ Created k k' c' := by
  simp only [createRoot, bind_ok, fetch_ok, pure_ok] at h
  obtain ⟨_, -, t, ht, m, hm, rfl⟩ := h
  rcases (Table.mem_insert ht).mp hc' with hc' | rfl
  · exact Or.inl hc'
  · refine Or.inr ⟨Table.insert_fresh ht, Or.inl ⟨rfl, _, (Table.mem_insert hm).mpr (Or.inr rfl), ?_⟩⟩
    exact ⟨rfl, rfl, rfl, rfl, rfl⟩

theorem createChild_container {kind : Kind} {u : UserId} {team : ContainerId} (hi : MemberInv k)
    (h : createChild k id kind u team = .ok k') {c' : Container} (hc' : c' ∈ k'.containers) :
    c' ∈ k.containers ∨ Created k k' c' := by
  simp only [createChild, bind_ok, require_ok, fetch_ok, pure_ok] at h
  obtain ⟨p, hp, _, ⟨hkp, hkind⟩, ⟨role, g⟩, hm, _, -, _, -, t, ht, rfl⟩ := h
  obtain ⟨hp, -⟩ := liveContainer_some hp
  obtain ⟨⟨m, hmem, -⟩, -⟩ := memberTx_ok hm
  obtain ⟨hmem, hl⟩ := liveMember_some hmem
  have hkey := Table.get_key hmem
  simp only [Membership.key, Prod.mk.injEq] at hkey
  rcases (Table.mem_insert ht).mp hc' with hc' | rfl
  · exact Or.inl hc'
  · have hpid : p.id = team := Table.get_key hp
    refine Or.inr ⟨Table.insert_fresh ht, Or.inr ⟨p, Table.get_mem hp, ?_, hkp, hkind, ?_, ?_⟩⟩
    · rw [hpid]; rfl
    · exact ⟨m, Table.get_mem hmem, hkey.1.trans hpid.symm, hkey.2, hl⟩
    · intro x hx hxc hxl
      refine Table.get_mem (Table.get_insertAll_of_mem ?_ ?_ ?_)
      · exact List.mem_map.mpr ⟨x, List.mem_filter.mpr ⟨hx, by simpa [hxl] using hxc.trans hpid⟩, rfl⟩
      · -- two copies of one key are of one row
        intro s hs hk
        obtain ⟨y, hy, rfl⟩ := List.mem_map.mp hs
        obtain ⟨hy, hyp⟩ := List.mem_filter.mp hy
        have hyc : y.containerId = team := by simpa using (of_decide_eq_true hyp).1
        simp only [Membership.key, Prod.mk.injEq] at hk
        have hyx : y = x :=
          Table.eq_of_key hy hx (by simp only [Membership.key, hyc, hxc, hpid, hk.2])
        subst hyx
        rfl
      · -- the new container has no memberships yet
        refine Table.get_eq_none.mpr fun y hy hk => ?_
        simp only [Membership.key, Prod.mk.injEq] at hk
        obtain ⟨c, hc, hcid⟩ := hi.container y hy
        exact Table.get_eq_none.mp (Table.insert_fresh ht) c hc (hcid.trans hk.1)

theorem revokeMember_container {cid : ContainerId} {target : UserId} {now : Stamp} {c' : Container}
    (h : c' ∈ (revokeMember k cid target now).containers) :
    ∃ c ∈ k.containers, SameNotebook c c' ∧ OwnerAfter (.adminRemoveMember cid target) k c c' := by
  have retired : ∀ {c₁ : Container}, c₁ ∈ k.containers.update (Retires cid) (fun c =>
      { c with keyGeneration := c.keyGeneration + 1 }) → ∃ c ∈ k.containers, SameNotebook c c₁ ∧
        c₁.ownerUserId = c.ownerUserId := by
    intro c₁ hc₁
    rcases Table.mem_update_cases hc₁ with ⟨hc₁, -⟩ | ⟨c, hc, -, rfl⟩
    · exact ⟨c₁, hc₁, .refl c₁, rfl⟩
    · exact ⟨c, hc, ⟨rfl, rfl, rfl, fun h => h⟩, rfl⟩
  rcases Table.mem_update_cases h with ⟨h, hn⟩ | ⟨c₁, hc₁, ⟨ht, ho⟩, rfl⟩
  · obtain ⟨c, hc, hs, hown⟩ := retired h
    refine ⟨c, hc, hs, Or.inl ⟨fun hx => hn ⟨?_, ?_⟩, hown⟩⟩
    · rw [hs.team]; exact hx.1
    · rw [hown]; exact hx.2.1
  · obtain ⟨c, hc, hs, hown⟩ := retired hc₁
    refine ⟨c, hc, ⟨hs.id, hs.kind, hs.team, hs.live⟩, ?_⟩
    rw [hs.team] at ht
    rw [hown] at ho
    cases hg : k.containers.get cid with
    | none =>
      refine Or.inl ⟨fun hx => ?_, hown⟩
      obtain ⟨-, -, t, htm, htid⟩ := hx
      exact Table.get_eq_none.mp hg t htm htid
    | some t =>
      have htm := Table.get_mem hg
      have htid := Table.get_key hg
      exact Or.inr ⟨⟨ht, ho, t, htm, htid⟩, t, htm, by rw [htid]; exact ht, rfl⟩

/-! ## The invariant of memberships -/

/-- The containers of the old rows are still there. -/
theorem MemberInv.of_rows (hi : MemberInv k) (hl : Later k k')
    (hm : ∀ m' ∈ k'.memberships, (∃ m ∈ k.memberships, m'.containerId = m.containerId ∧ m'.approved = m.approved ∧
        m'.role = m.role) ∨
      ((m'.approved = false → m'.role = .viewer) ∧ ∃ c ∈ k'.containers, c.id = m'.containerId)) : MemberInv k' where
  viewer := by
    intro m' hm' ha
    rcases hm m' hm' with ⟨m, hmem, -, hap, hr⟩ | ⟨hv, -⟩
    · rw [hr]
      exact hi.viewer m hmem (hap ▸ ha)
    · exact hv ha
  container := by
    intro m' hm'
    rcases hm m' hm' with ⟨m, hmem, hc, -⟩ | ⟨-, hc⟩
    · obtain ⟨c, hcm, hcid⟩ := hi.container m hmem
      obtain ⟨c', hc', ha⟩ := hl.row c hcm
      exact ⟨c', hc', by rw [ha.id, hcid, hc]⟩
    · exact hc

theorem MemberInv.of_same (hi : MemberInv k) (hl : Later k k') (hm : k'.memberships = k.memberships) : MemberInv k' :=
  hi.of_rows hl fun m' hm' => Or.inl ⟨m', by rw [← hm]; exact hm', rfl, rfl, rfl⟩

theorem createRoot_memberInv {kind : Kind} {u : UserId} (hk : KeyInv k) (hi : MemberInv k)
    (h : createRoot k id kind u = .ok k') : MemberInv k' := by
  have hl := (createRoot_inv hk h).2
  simp only [createRoot, bind_ok, fetch_ok, pure_ok] at h
  obtain ⟨_, -, t, ht, m, hm, rfl⟩ := h
  refine hi.of_rows hl fun m' hm' => ?_
  rcases (Table.mem_insert hm).mp hm' with hm' | rfl
  · exact Or.inl ⟨m', hm', rfl, rfl, rfl⟩
  · exact Or.inr ⟨fun h => (by cases h), _, (Table.mem_insert ht).mpr (Or.inr rfl), rfl⟩

theorem createChild_memberInv {kind : Kind} {u : UserId} {team : ContainerId} (hk : KeyInv k) (hi : MemberInv k)
    (h : createChild k id kind u team = .ok k') : MemberInv k' := by
  have hl := (createChild_inv hk h).2
  simp only [createChild, bind_ok, require_ok, fetch_ok, pure_ok] at h
  obtain ⟨_, -, _, -, _, -, _, -, _, -, t, ht, rfl⟩ := h
  refine hi.of_rows hl fun m' hm' => ?_
  rcases Table.mem_of_mem_insertAll hm' with hm' | hm'
  · exact Or.inl ⟨m', hm', rfl, rfl, rfl⟩
  · obtain ⟨m, hm, rfl⟩ := List.mem_map.mp hm'
    refine Or.inr ⟨hi.viewer m (List.mem_filter.mp hm).1, _, (Table.mem_insert ht).mpr (Or.inr rfl), rfl⟩

theorem admitMemberTx_memberInv {cid : ContainerId} {u : UserId} {role : Role} {by' : Option UserId} {approved : Bool}
    (hi : MemberInv k) (h : admitMemberTx k cid u role by' approved = .ok k') : MemberInv k' := by
  have hl : Later k k' := by
    obtain ⟨t, rfl, ha, -⟩ := admitMemberTx_spec h
    exact .setMemberships fun u c _ _ => ha u c.id
  simp only [admitMemberTx, bind_ok, require_ok, pure_ok] at h
  obtain ⟨_, -, rfl⟩ := h
  have hviewer : approved = false → (if approved then role else .viewer) = Role.viewer := by
    rintro rfl
    rfl
  refine hi.of_rows hl fun m' hm' => ?_
  rcases Table.mem_of_mem_insertAll hm' with hm' | hm'
  · rcases Table.mem_update_cases hm' with ⟨hm', -⟩ | ⟨m, hm, -, rfl⟩
    · exact Or.inl ⟨m', hm', rfl, rfl, rfl⟩
    · exact Or.inr ⟨hviewer, hi.container m hm⟩
  · obtain ⟨c, hc, rfl⟩ := List.mem_map.mp hm'
    exact Or.inr ⟨hviewer, c, (List.mem_filter.mp hc).1, rfl⟩

theorem approveMember_memberInv {caller : UserId} {cid : ContainerId} {target : UserId} (hk : KeyInv k)
    (hi : MemberInv k) (h : approveMember k caller cid target = .ok k') : MemberInv k' := by
  have hl := (approveMember_inv hk h).2
  simp only [approveMember, bind_ok, require_ok, fetch_ok, pure_ok] at h
  obtain ⟨_, -, _, -, _, -, _, -, rfl⟩ := h
  refine hi.of_rows hl fun m' hm' => ?_
  rcases Table.mem_update_cases hm' with ⟨hm', -⟩ | ⟨m, hm, -, rfl⟩
  · exact Or.inl ⟨m', hm', rfl, rfl, rfl⟩
  · exact Or.inr ⟨fun h => (by cases h), hi.container m hm⟩

theorem removeMemberTx_memberInv {cid : ContainerId} {target : UserId} {now : Stamp} (hk : KeyInv k) (hi : MemberInv k)
    (h : removeMemberTx k cid target now = .ok k') : MemberInv k' := by
  have hl := (removeMemberTx_inv hk h).2
  obtain ⟨-, rfl⟩ := removeMemberTx_ok h
  refine hi.of_rows hl fun m' hm' => ?_
  obtain ⟨m, hm, hc, -, hr, ha⟩ := mem_revokeMember hm'
  exact Or.inl ⟨m, hm, hc, ha, hr⟩

/-! ## Every operation -/

/-- The operation is no removal. -/
def KeyOp.Plain (op : KeyOp) : Prop :=
  match op with
  | .removeMember .. | .adminRemoveMember .. => False
  | _ => True

theorem KeyOp.Plain.not_handsOver (h : op.Plain) {c : Container} : ¬op.HandsOver k c := by
  cases op
  case removeMember => exact absurd h id
  case adminRemoveMember => exact absurd h id
  all_goals exact id

/-- The ways a key operation changes the memberships and the containers. -/
inductive MemberChange (k : KeyTables) (id : Nat) : KeyOp → KeyTables → Prop
  | same {kop k₁} (hop : kop.Plain) (hm : k₁.memberships = k.memberships) (hc : SameContainers k k₁) :
      MemberChange k id kop k₁
  | root {kop k₁ kind u} (hop : kop.Plain) (h : createRoot k id kind u = .ok k₁) : MemberChange k id kop k₁
  | child {kop k₁ kind u team} (hop : kop.Plain) (h : createChild k id kind u team = .ok k₁) :
      MemberChange k id kop k₁
  | admitted {kop t k₁ k₂ cid u role inviter approved} (hop : kop.Plain)
      (h : admitMemberTx { k with invitations := t } cid u role inviter approved = .ok k₂)
      (hm : k₁.memberships = k₂.memberships) (hc : k₁.containers = k.containers) : MemberChange k id kop k₁
  | approve {kop k₁ caller cid target} (hop : kop.Plain) (h : approveMember k caller cid target = .ok k₁) :
      MemberChange k id kop k₁
  | remove {kop k₁ cid target now}
      (hop : (∃ caller, kop = .removeMember caller cid target) ∨ kop = .adminRemoveMember cid target)
      (h : removeMemberTx k cid target now = .ok k₁) : MemberChange k id kop k₁

/-- There is no other way. -/
theorem keyTx_members (h : keyTx op k id clock = .ok k') : MemberChange k id op k' := by
  cases op with
  | createUser a s =>
    simp only [keyTx, createUser, bind_ok, fetch_ok, pure_ok] at h
    obtain ⟨t, -, rfl⟩ := h
    exact .same trivial rfl (.of_eq rfl)
  | patchUser u s q =>
    simp only [keyTx, patchUser, bind_ok, fetch_ok, pure_ok] at h
    obtain ⟨_, -, rfl⟩ := h
    refine .same trivial ?_ (.of_eq ?_)
    · split <;> rfl
    · split <;> rfl
  | resetPassword u => cases h; exact .same trivial rfl (.of_eq rfl)
  | endCredentials ids => cases h; exact .same trivial rfl (.of_eq rfl)
  | setStatus u s => cases h; exact .same trivial rfl (.of_eq rfl)
  | registerDevice u fp =>
    simp only [keyTx, registerDevice, bind_ok, require_ok] at h
    obtain ⟨_, -, h⟩ := h
    split at h
    · simp only [pure_ok] at h
      subst h
      exact .same trivial rfl (.of_eq rfl)
    · simp only [bind_ok, require_ok, fetch_ok, pure_ok] at h
      obtain ⟨_, -, t, -, rfl⟩ := h
      exact .same trivial rfl (.of_eq rfl)
  | revokeDevice u d =>
    simp only [keyTx, revokeDevice, bind_ok, require_ok, pure_ok] at h
    obtain ⟨_, -, rfl⟩ := h
    exact .same trivial rfl (.of_eq rfl)
  | createIdentity u stepUp fp =>
    simp only [keyTx, createIdentity, insertIdentity, bind_ok, require_ok, fetch_ok, pure_ok] at h
    obtain ⟨_, -, _, -, t, -, i, -, rfl⟩ := h
    exact .same trivial rfl (.of_eq rfl)
  | resetIdentity u a b expected fp =>
    simp only [keyTx, resetIdentity, insertIdentity, bind_ok, require_ok, fetch_ok, pure_ok] at h
    obtain ⟨_, -, _, -, _, -, _, -, _, -, t, -, i, -, rfl⟩ := h
    exact .same trivial rfl (.update rfl (fun c => ⟨rfl, rfl, rfl, fun h => h⟩) fun _ => rfl)
  | createContainer u kind team =>
    cases team with
    | none => exact .root trivial h
    | some t => exact .child trivial h
  | adminCreateTeam owner =>
    simp only [keyTx, adminCreateTeam, bind_ok, require_ok] at h
    obtain ⟨_, -, h⟩ := h
    exact .root trivial h
  | rename u cid scheme g base =>
    simp only [keyTx, renameContainer, bind_ok, require_ok, fetch_ok, pure_ok] at h
    obtain ⟨_, -, _, -, _, -, _, -, _, -, _, -, rfl⟩ := h
    exact .same trivial rfl (.update rfl (fun c => ⟨rfl, rfl, rfl, fun h => h⟩) fun _ => rfl)
  | rotate u stepUp cid expected vs =>
    obtain ⟨⟨k₁, next⟩, hr, rfl⟩ := map_ok h
    obtain ⟨_, _, k₁, -, -, -, -, h₁, -, h₂, -⟩ := rotateKeys_ok hr
    exact .same trivial (h₁.trans h₂).memberships
      (.update (h₁.trans h₂).containers (fun c => ⟨rfl, rfl, rfl, fun h => h⟩) fun _ => rfl)
  | putEnvelopes u stepUp cid vs =>
    exact .same trivial (putEnvelopes_same h).memberships (.of_eq (putEnvelopes_same h).containers)
  | invite u stepUp cid invitee role token vs =>
    exact .same trivial (invite_same h).1.memberships (.of_eq (invite_same h).1.containers)
  | accept u i token =>
    obtain ⟨x, -, -, t, k₂, hk₂, rfl⟩ := accept_ok h
    obtain ⟨m, rfl, -⟩ := admitMemberTx_spec hk₂
    exact .admitted trivial hk₂ rfl rfl
  | approve u cid target => exact .approve trivial h
  | removeMember u cid target => exact .remove (Or.inl ⟨u, rfl⟩) (removeMember_ok h)
  | adminRemoveMember cid target => exact .remove (Or.inr rfl) h
  | adminAddMember cid u role =>
    simp only [keyTx, adminAddMember, bind_ok, require_ok] at h
    obtain ⟨_, -, _, -, h⟩ := h
    obtain ⟨m, rfl, -⟩ := admitMemberTx_spec h
    exact .admitted (t := k.invitations) trivial h rfl rfl

/-- A live membership stays, unless the operation removes the member. -/
theorem keyTx_stays (h : keyTx op k id clock = .ok k') {m : Membership} (hm : m ∈ k.memberships)
    (hl : m.revokedAt = none) : op.Drops k m.userId m.containerId ∨ ∃ m' ∈ k'.memberships, Stays m m' := by
  cases keyTx_members h with
  | same _ he _ => exact Or.inr (Keeps.of_eq he m hm hl)
  | root _ h => exact Or.inr (createRoot_keeps h m hm hl)
  | child _ h => exact Or.inr (createChild_keeps h m hm hl)
  | admitted _ h he _ =>
    obtain ⟨m', hm', hs⟩ := admitMemberTx_keeps h m hm hl
    exact Or.inr ⟨m', by rw [he]; exact hm', hs⟩
  | approve _ h => exact Or.inr (approveMember_keeps h m hm hl)
  | remove hop h =>
    refine (removeMemberTx_keeps h hm hl).imp_left ?_
    rcases hop with ⟨caller, rfl⟩ | rfl <;> exact fun hd => hd

/-- A container after an operation was there, with its owner unless it is handed over, or has just been created. -/
theorem keyTx_container (hi : MemberInv k) (h : keyTx op k id clock = .ok k') {c' : Container}
    (hc' : c' ∈ k'.containers) :
    (∃ c ∈ k.containers, SameNotebook c c' ∧ OwnerAfter op k c c') ∨ Created k k' c' := by
  have old : op.Plain → c' ∈ k.containers → ∃ c ∈ k.containers, SameNotebook c c' ∧ OwnerAfter op k c c' :=
    fun hop hc => ⟨c', hc, .refl c', Or.inl ⟨hop.not_handsOver, rfl⟩⟩
  cases keyTx_members h with
  | same hop _ hs =>
    obtain ⟨c, hc, hsn, ho⟩ := hs.origin c' hc'
    exact Or.inl ⟨c, hc, hsn, Or.inl ⟨hop.not_handsOver, ho⟩⟩
  | root hop h => exact (createRoot_container h hc').imp_left (old hop)
  | child hop h => exact (createChild_container hi h hc').imp_left (old hop)
  | admitted hop _ _ hc => exact Or.inl (old hop (by rw [← hc]; exact hc'))
  | approve hop h =>
    simp only [approveMember, bind_ok, require_ok, fetch_ok, pure_ok] at h
    obtain ⟨_, -, _, -, _, -, _, -, rfl⟩ := h
    exact Or.inl (old hop hc')
  | remove hop h =>
    obtain ⟨-, rfl⟩ := removeMemberTx_ok h
    rcases hop with ⟨caller, rfl⟩ | rfl <;> exact Or.inl (revokeMember_container hc')

theorem keyTx_memberInv (hk : KeyInv k) (hi : MemberInv k) (h : keyTx op k id clock = .ok k') : MemberInv k' := by
  cases keyTx_members h with
  | same _ hm _ => exact hi.of_same (keyTx_inv hk h).2 hm
  | root _ h => exact createRoot_memberInv hk hi h
  | child _ h => exact createChild_memberInv hk hi h
  | @admitted t _ _ _ _ _ _ _ _ h hm hc =>
    have h₀ : MemberInv { k with invitations := t } := ⟨hi.viewer, hi.container⟩
    have h₂ := admitMemberTx_memberInv h₀ h
    obtain ⟨t, rfl, -⟩ := admitMemberTx_spec h
    exact ⟨fun m hmem => h₂.viewer m (hm ▸ hmem), fun m hmem => by rw [hc]; exact h₂.container m (hm ▸ hmem)⟩
  | approve _ h => exact approveMember_memberInv hk hi h
  | remove _ h => exact removeMemberTx_memberInv hk hi h

/-! ## Runs -/

variable {cfg : Config} {w : World}

theorem KeyChange.memberInv {op : Op} (hc : KeyChange w op k') (hk : KeyInv w.keys) (hi : MemberInv w.keys) :
    MemberInv k' := by
  cases hc with
  | same => exact hi
  | tx h => exact keyTx_memberInv hk hi h
  | delete => exact hi.of_same (tombstoneContainers_inv hk _ _).2 rfl
  | purge => exact hi.of_same (.of_eq rfl rfl) rfl

theorem init_memberInv : MemberInv World.init.keys where
  viewer := fun _ h => absurd h (Table.not_mem_empty _)
  container := fun _ h => absurd h (Table.not_mem_empty _)

theorem reach_memberInv (cfg : Config) (ops : List Op) : MemberInv (World.reach cfg ops).keys :=
  (run_inv (P := fun w : World => KeyInv w.keys ∧ MemberInv w.keys)
    (fun w op h => ⟨step_keyInv cfg w op h.1, (step_keys cfg w op).memberInv h.1 h.2⟩) ops
    ⟨init_keyInv, init_memberInv⟩).2

end KyNotes
