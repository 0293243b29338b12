import KyNotes.Keys.Members

/-!
# Who is charged for a notebook

A container's bytes are charged to its `owner_user_id`. `OwnerInv` holds on every run: the owner of a root container is
a live owner of it, and the owner of a team is a live owner of each of the team's notebooks. So a removal from a team can
hand the notebooks of the removed member over to someone who is in them. A removal that names a team's notebook itself
hands nothing over; `owner_is_member`: the charged owners are members as long as no such removal hits the notebook's
creator.
-/

namespace KyNotes

open Relational Check Transition

variable {k k' : KeyTables} {op : KeyOp} {id : Nat} {clock : Time} {u : UserId} {cid x : ContainerId}

/-! ## Owners stay -/

/-- Owners of roots and of teams. -/
structure OwnerInv (k : KeyTables) : Prop where
  team : ∀ c ∈ k.containers, c.kind = .team → c.teamId = none
  parent : ∀ c ∈ k.containers, ∀ t, c.teamId = some t → ∃ p ∈ k.containers, p.id = t ∧ p.teamId = none
  root : ∀ c ∈ k.containers, c.teamId = none → OwnerIn k c.ownerUserId c.id
  child : ∀ c ∈ k.containers, ∀ p ∈ k.containers, c.teamId = some p.id → OwnerIn k p.ownerUserId c.id

/-- The team of a notebook is a root. -/
theorem OwnerInv.root_of_team (h : OwnerInv k) {c p : Container} (hc : c ∈ k.containers) (hp : p ∈ k.containers)
    (ht : c.teamId = some p.id) : p.teamId = none := by
  obtain ⟨p', hp', hid, hroot⟩ := h.parent c hc p.id ht
  rw [Table.eq_of_key hp hp' hid.symm]
  exact hroot

/-- A removal is refused for an owner. -/
theorem KeyOp.Drops.removal (hd : op.Drops k u x) (h : keyTx op k id clock = .ok k') :
    ∃ cid, (x = cid ∨ InScope k cid x) ∧ ¬OwnerIn k u cid ∧ ∀ c ∈ k.containers, c.teamId = some cid →
      c.ownerUserId = u → (∃ t ∈ k.containers, t.id = cid) → op.HandsOver k c := by
  have refused : ∀ {cid target now}, removeMemberTx k cid target now = .ok k' → ¬OwnerIn k target cid := by
    rintro cid target now hx ⟨m, hm, hc, hu, hl, hr, -⟩
    obtain ⟨⟨m', hm', hr'⟩, -⟩ := removeMemberTx_ok hx
    obtain ⟨hget, -⟩ := liveMember_some hm'
    have hkey := Table.get_key hget
    have : m' = m := Table.eq_of_key (Table.get_mem hget) hm (by rw [hkey, Membership.key, hc, hu])
    exact hr' (by rw [this]; exact hr)
  cases op
  case removeMember caller cid target =>
    obtain ⟨rfl, hs⟩ := hd
    exact ⟨cid, hs, refused (removeMember_ok h), fun c _ ht ho hp => ⟨ht, ho, hp⟩⟩
  case adminRemoveMember cid target =>
    obtain ⟨rfl, hs⟩ := hd
    exact ⟨cid, hs, refused h, fun c _ ht ho hp => ⟨ht, ho, hp⟩⟩
  all_goals exact absurd hd not_false

/-- What a scope holds of a container. -/
theorem inScope_of_mem {c : Container} (hc : c ∈ k.containers) (h : c.id = cid ∨ InScope k cid c.id) :
    c.id = cid ∨ c.teamId = some cid := by
  rcases h with h | ⟨c', hc', hid, hs⟩
  · exact Or.inl h
  · rw [Table.eq_of_key hc' hc hid] at hs
    exact hs

theorem OwnerInv.root_kept (hi : OwnerInv k) (h : keyTx op k id clock = .ok k') {c : Container}
    (hc : c ∈ k.containers) (hr : c.teamId = none) : ¬op.Drops k c.ownerUserId c.id := by
  intro hd
  obtain ⟨cid, hs, hno, -⟩ := hd.removal h
  rcases inScope_of_mem hc hs with rfl | hs
  · exact hno (hi.root c hc hr)
  · rw [hr] at hs
    cases hs

theorem OwnerInv.child_kept (hi : OwnerInv k) (h : keyTx op k id clock = .ok k') {c p : Container}
    (hc : c ∈ k.containers) (hp : p ∈ k.containers) (ht : c.teamId = some p.id) :
    ¬op.Drops k p.ownerUserId c.id := by
  intro hd
  obtain ⟨cid, hs, hno, -⟩ := hd.removal h
  rcases inScope_of_mem hc hs with rfl | hs
  · exact hno (hi.child c hc p hp ht)
  · rw [ht] at hs
    cases hs
    exact hno (hi.root p hp (hi.root_of_team hc hp ht))

theorem OwnerIn.step (ho : OwnerIn k u cid) (h : keyTx op k id clock = .ok k') (hd : ¬op.Drops k u cid) :
    OwnerIn k' u cid := by
  obtain ⟨m, hm, rfl, rfl, hl, hr, ha⟩ := ho
  rcases keyTx_stays h hm hl with hdrop | ⟨m', hm', hs⟩
  · exact absurd hdrop hd
  · obtain ⟨ha', hr'⟩ := hs.approved ha
    exact ⟨m', hm', hs.container, hs.user, hs.live, hr'.trans hr, ha'⟩

theorem MemberOf.step (hm : MemberOf k u cid) (h : keyTx op k id clock = .ok k') (hd : ¬op.Drops k u cid) :
    MemberOf k' u cid := by
  obtain ⟨m, hmem, rfl, rfl, hl⟩ := hm
  rcases keyTx_stays h hmem hl with hdrop | ⟨m', hm', hs⟩
  · exact absurd hdrop hd
  · exact ⟨m', hm', hs.container, hs.user, hs.live⟩

/-! ## The invariant -/

/-- A handed-over container is a team's notebook. -/
theorem KeyOp.HandsOver.team {c : Container} (h : op.HandsOver k c) : c.teamId ≠ none := by
  cases op
  case removeMember => exact fun hn => by rw [h.1] at hn; cases hn
  case adminRemoveMember => exact fun hn => by rw [h.1] at hn; cases hn
  all_goals exact absurd h not_false

/-- The row of a root container keeps its owner. -/
theorem OwnerAfter.root {c c' : Container} (h : OwnerAfter op k c c') (hr : c.teamId = none) :
    c'.ownerUserId = c.ownerUserId := by
  rcases h with ⟨-, h⟩ | ⟨h, -⟩
  · exact h
  · exact absurd hr h.team

theorem keyTx_ownerInv (hk : KeyInv k) (hm : MemberInv k) (hi : OwnerInv k) (h : keyTx op k id clock = .ok k') :
    OwnerInv k' := by
  have hrow := (keyTx_inv hk h).2.row
  -- a container with an old id is the old one
  have old : ∀ {c c'}, c ∈ k.containers → c' ∈ k'.containers → c'.id = c.id → SameNotebook c c' ∧ OwnerAfter op k c c' := by
    intro c c' hc hc' hid
    rcases keyTx_container hm h hc' with ⟨x, hx, hs, ho⟩ | hn
    · have : x = c := Table.eq_of_key hx hc (hs.id.symm.trans hid)
      subst this
      exact ⟨hs, ho⟩
    · exact absurd hid.symm (Table.get_eq_none.mp hn.fresh c hc)
  constructor
  case team =>
    intro c' hc' hkind
    rcases keyTx_container hm h hc' with ⟨c, hc, hs, -⟩ | ⟨-, ⟨hr, -⟩ | ⟨t, -, -, -, hne, -⟩⟩
    · rw [hs.team]
      exact hi.team c hc (hs.kind.symm.trans hkind)
    · exact hr
    · exact absurd hkind hne
  case parent =>
    intro c' hc' t ht
    have hparent : ∃ p ∈ k.containers, p.id = t ∧ p.teamId = none := by
      rcases keyTx_container hm h hc' with ⟨c, hc, hs, -⟩ | ⟨-, ⟨hr, -⟩ | ⟨p, hp, hpt, hkind, -⟩⟩
      · exact hi.parent c hc t (hs.team.symm.trans ht)
      · rw [hr] at ht
        cases ht
      · rw [hpt] at ht
        cases ht
        exact ⟨p, hp, rfl, hi.team p hp hkind⟩
    obtain ⟨p, hp, rfl, hroot⟩ := hparent
    obtain ⟨p', hp', ha⟩ := hrow p hp
    exact ⟨p', hp', ha.id, ha.team.trans hroot⟩
  case root =>
    intro c' hc' hr
    rcases keyTx_container hm h hc' with ⟨c, hc, hs, ho⟩ | ⟨-, ⟨-, hown⟩ | ⟨t, -, ht, -⟩⟩
    · have hcr : c.teamId = none := hs.team.symm.trans hr
      rw [ho.root hcr, hs.id]
      exact (hi.root c hc hcr).step h (hi.root_kept h hc hcr)
    · exact hown
    · rw [hr] at ht
      cases ht
  case child =>
    intro c' hc' p' hp' ht
    rcases keyTx_container hm h hc' with ⟨c, hc, hs, -⟩ | ⟨hfresh, ⟨hr, -⟩ | ⟨t, htm, htt, hkind, -, -, hcopy⟩⟩
    · obtain ⟨p, hp, hpid, hroot⟩ := hi.parent c hc p'.id (hs.team.symm.trans ht)
      obtain ⟨hps, hpo⟩ := old hp hp' hpid.symm
      have hct : c.teamId = some p.id := by rw [← hs.team, ht, hpid]
      rw [hpo.root hroot, hs.id]
      exact (hi.child c hc p hp hct).step h (hi.child_kept h hc hp hct)
    · rw [hr] at ht
      cases ht
    · -- the team's owner has a copy of its membership in the new notebook
      rw [htt] at ht
      have hid : t.id = p'.id := Option.some.inj ht
      obtain ⟨-, hpo⟩ := old htm hp' hid.symm
      have hroot := hi.team t htm hkind
      obtain ⟨m, hmem, hmc, hmu, hl, hrole, ha⟩ := hi.root t htm hroot
      rw [hpo.root hroot]
      exact ⟨_, hcopy m hmem hmc hl, rfl, hmu, hl, hrole, ha⟩

/-! ## The charged owner -/

/-- The owner of every live container is a live member of it. -/
def OwnersAreMembers (k : KeyTables) : Prop := ∀ c ∈ k.containers, c.deletedAt = none → MemberOf k c.ownerUserId c.id

instance (k : KeyTables) : Decidable (OwnersAreMembers k) :=
  inferInstanceAs (Decidable (∀ c ∈ k.containers, c.deletedAt = none → MemberOf k c.ownerUserId c.id))

/-- A live notebook of a team, charged to the user. -/
def ChargedIn (k : KeyTables) (cid : ContainerId) (target : UserId) : Prop :=
  ∃ c ∈ k.containers, c.id = cid ∧ c.deletedAt = none ∧ c.teamId ≠ none ∧ c.ownerUserId = target

instance (k : KeyTables) (cid : ContainerId) (target : UserId) : Decidable (ChargedIn k cid target) :=
  inferInstanceAs (Decidable (∃ c ∈ k.containers, c.id = cid ∧ c.deletedAt = none ∧ c.teamId ≠ none ∧ c.ownerUserId = target))

/-- The checks of an administrator's removal. -/
def Removable (k : KeyTables) (cid : ContainerId) (target : UserId) : Prop :=
  ∃ m, liveMember k cid target = some m ∧ m.role ≠ .owner

/-- The checks of a steward's removal. -/
def MayRemove (k : KeyTables) (caller : UserId) (cid : ContainerId) (target : UserId) : Prop :=
  target ≠ caller ∧ ∃ role, liveRole k cid caller = some role ∧ isSteward role ∧
    ∃ m, liveMember k cid target = some m ∧ m.role ≠ .owner ∧
      ¬(role = .admin ∧ m.role = .admin ∧ m.invitedBy ≠ some caller)

/-- The operation removes nobody from a team's notebook that is charged to them. -/
def KeepsPayer (w : World) : Op → Prop
  | .key (.removeMember caller cid target) => MayRemove w.keys caller cid target → ¬ChargedIn w.keys cid target
  | .key (.adminRemoveMember cid target) => Removable w.keys cid target → ¬ChargedIn w.keys cid target
  | _ => True

theorem removable_iff {target : UserId} (now : Stamp) :
    Removable k cid target ↔ removeMemberTx k cid target now = .ok (revokeMember k cid target now) := by
  simp only [Removable, removeMemberTx, bind_ok, fetch_ok, require_ok, pure_ok, and_true]
  constructor
  · rintro ⟨m, hm, hr⟩
    exact ⟨m, hm, (), hr⟩
  · rintro ⟨m, hm, -, hr⟩
    exact ⟨m, hm, hr⟩

theorem mayRemove_iff {caller target : UserId} (now : Stamp) :
    MayRemove k caller cid target ↔ removeMember k caller cid target now = .ok (revokeMember k cid target now) := by
  simp only [MayRemove, removeMember, removeMemberTx, bind_ok, fetch_ok, require_ok, pure_ok, and_true]
  constructor
  · rintro ⟨hne, role, hr, hs, m, hm, hown, had⟩
    exact ⟨(), hne, role, hr, (), hs, m, hm, (), ⟨hown, had⟩, m, hm, (), hown⟩
  · rintro ⟨-, hne, role, hr, -, hs, m, hm, -, ⟨hown, had⟩, -⟩
    exact ⟨hne, role, hr, hs, m, hm, hown, had⟩

variable {cfg : Config} {w : World}

/-- A removal takes the charged user of a team's notebook out of it and goes on charging them. -/
theorem revokeMember_charges {target : UserId} {now : Stamp} (hi : OwnerInv k) (h : ChargedIn k cid target) :
    ¬OwnersAreMembers (revokeMember k cid target now) := by
  intro hall
  obtain ⟨c, hc, hid, hl, ht, ho⟩ := h
  -- the notebook is in no team of itself, so that it is not handed over
  have hself : c.teamId ≠ some cid := by
    intro he
    have hroot := hi.root_of_team hc hc (by rw [hid]; exact he)
    exact ht hroot
  let c₁ : Container := { c with keyGeneration := c.keyGeneration + 1 }
  have hc₁ : c₁ ∈ k.containers.update (Retires cid) fun c => { c with keyGeneration := c.keyGeneration + 1 } :=
    Table.mem_update_of (f := fun c : Container => { c with keyGeneration := c.keyGeneration + 1 }) hc (Or.inl hid)
  have hc₂ : c₁ ∈ (revokeMember k cid target now).containers :=
    Table.mem_update_of_not hc₁ fun hp => hself hp.1
  obtain ⟨m, hm, hmc, hmu, hml⟩ := hall c₁ hc₂ hl
  rcases Table.mem_update_cases hm with ⟨hm, hn⟩ | ⟨m₀, -, -, rfl⟩
  · exact hn ⟨Or.inl (hmc.trans hid), hmu.trans ho, hml⟩
  · cases hml

theorem next_key (cfg : Config) (kop : KeyOp) {k : KeyTables}
    (h : keyTx kop w.keys w.store.next w.store.clock = .ok k) : (w.next cfg (.key kop)).keys = k := by
  simp [World.next, step, txDb, keyDb, h, Except.map, commitDb]

/-- Who pays for a container after an operation that keeps the payers is a member of it. -/
theorem keyTx_owners (hk : KeyInv k) (hm : MemberInv k) (hi : OwnerInv k) (ho : OwnersAreMembers k)
    (h : keyTx op k id clock = .ok k') (hp : ∀ u x, op.Drops k u x → ∀ c ∈ k.containers, c.id = x → c.deletedAt = none →
      c.ownerUserId = u → c.teamId = none ∨ op.HandsOver k c) : OwnersAreMembers k' := by
  have hi' := keyTx_ownerInv hk hm hi h
  intro c' hc' hl
  rcases keyTx_container hm h hc' with ⟨c, hc, hs, ⟨hno, hown⟩ | ⟨hto, p, hpm, ht, hown⟩⟩ | ⟨-, ⟨-, hown⟩ | ⟨t, htm, -, -, -, hmem, hcopy⟩⟩
  · rw [hs.id, hown]
    by_cases hd : op.Drops k c.ownerUserId c.id
    · rcases hp _ _ hd c hc rfl (hs.live hl) rfl with hr | hto
      · exact absurd hd (hi.root_kept h hc hr)
      · exact absurd hto hno
    · exact (ho c hc (hs.live hl)).step h hd
  · rw [hs.id, hown]
    exact ((hi.child c hc p hpm ht).step h (hi.child_kept h hc hpm ht)).member
  · exact hown.member
  · obtain ⟨m, hmm, hmc, hmu, hml⟩ := hmem
    exact ⟨_, hcopy m hmm hmc hml, rfl, hmu, hml⟩

/-- A removal drops the charged user from the notebook it names, or hands the notebook over. -/
theorem drops_cases {target : UserId} (hx : x = cid ∨ InScope k cid x) {c : Container} (hc : c ∈ k.containers)
    (hcx : c.id = x) (hl : c.deletedAt = none) (ho : c.ownerUserId = target) (hn : ¬ChargedIn k cid target)
    (hteam : c.teamId = some cid → ∃ t ∈ k.containers, t.id = cid) :
    c.teamId = none ∨ (c.teamId = some cid ∧ c.ownerUserId = target ∧ ∃ t ∈ k.containers, t.id = cid) := by
  rw [← hcx] at hx
  rcases inScope_of_mem hc hx with hid | ht
  · by_cases hr : c.teamId = none
    · exact Or.inl hr
    · exact absurd ⟨c, hc, hid, hl, hr, ho⟩ hn
  · exact Or.inr ⟨ht, ho, hteam ht⟩

/-- Where the owners are members, an operation keeps that exactly when it keeps the payers. -/
theorem step_owners (hk : KeyInv w.keys) (hm : MemberInv w.keys) (hi : OwnerInv w.keys) (ho : OwnersAreMembers w.keys)
    (op : Op) : OwnersAreMembers (w.next cfg op).keys ↔ KeepsPayer w op := by
  constructor
  · intro h
    cases op
    case key kop =>
      cases kop
      case removeMember caller cid target =>
        intro hmay hc
        have hx := (mayRemove_iff w.store.now).mp hmay
        rw [next_key cfg (.removeMember caller cid target) hx] at h
        exact revokeMember_charges hi hc h
      case adminRemoveMember cid target =>
        intro hmay hc
        have hx := (removable_iff w.store.now).mp hmay
        rw [next_key cfg (.adminRemoveMember cid target) hx] at h
        exact revokeMember_charges hi hc h
      all_goals exact trivial
    all_goals exact trivial
  · intro hp
    have hc := step_keys cfg w op
    generalize (w.next cfg op).keys = k' at hc
    cases hc with
    | same => exact ho
    | purge => exact ho
    | delete =>
      intro c' hc' hl
      rcases Table.mem_update_cases hc' with ⟨hc', -⟩ | ⟨c, -, -, rfl⟩
      · exact ho c' hc' hl
      · cases hl
    | @tx kop k' hx =>
      have hparent : ∀ {c : Container} {t}, c ∈ w.keys.containers → c.teamId = some t →
          ∃ p ∈ w.keys.containers, p.id = t := by
        intro c t hc ht
        obtain ⟨p, hp, hid, -⟩ := hi.parent c hc t ht
        exact ⟨p, hp, hid⟩
      refine keyTx_owners hk hm hi ho hx ?_
      intro u x hd c hc hcx hl hou
      cases kop
      case removeMember caller cid target =>
        obtain ⟨rfl, hs⟩ := hd
        have hmay : MayRemove w.keys caller cid target := by
          refine (mayRemove_iff w.store.now).mpr ?_
          obtain ⟨-, rfl⟩ := removeMemberTx_ok (removeMember_ok hx)
          exact hx
        exact drops_cases hs hc hcx hl hou (hp hmay) (hparent hc)
      case adminRemoveMember cid target =>
        obtain ⟨rfl, hs⟩ := hd
        have hmay : Removable w.keys cid target := by
          obtain ⟨hmay, -⟩ := removeMemberTx_ok hx
          exact hmay
        exact drops_cases hs hc hcx hl hou (hp hmay) (hparent hc)
      all_goals exact absurd hd not_false

/-! ## Runs -/

theorem KeyChange.ownerInv {op : Op} (hc : KeyChange w op k') (hk : KeyInv w.keys) (hm : MemberInv w.keys)
    (hi : OwnerInv w.keys) : OwnerInv k' := by
  cases hc with
  | same => exact hi
  | tx h => exact keyTx_ownerInv hk hm hi h
  | purge => exact ⟨hi.team, hi.parent, hi.root, hi.child⟩
  | delete =>
    rename_i cid _
    have origin : ∀ c' ∈ (tombstoneContainers w.keys cid w.store.now).containers, ∃ c ∈ w.keys.containers,
        c'.id = c.id ∧ c'.kind = c.kind ∧ c'.teamId = c.teamId ∧ c'.ownerUserId = c.ownerUserId := by
      intro c' hc'
      rcases Table.mem_update_cases hc' with ⟨hc', -⟩ | ⟨c, hc, -, rfl⟩
      · exact ⟨c', hc', rfl, rfl, rfl, rfl⟩
      · exact ⟨c, hc, rfl, rfl, rfl, rfl⟩
    have kept := (tombstoneContainers_inv hk cid w.store.now).2.row
    constructor
    · intro c' hc' hkind
      obtain ⟨c, hcm, -, hkc, ht, -⟩ := origin c' hc'
      rw [ht]
      exact hi.team c hcm (hkc.symm.trans hkind)
    · intro c' hc' t ht
      obtain ⟨c, hcm, -, -, htc, -⟩ := origin c' hc'
      obtain ⟨p, hp, hid, hr⟩ := hi.parent c hcm t (htc.symm.trans ht)
      obtain ⟨p', hp', ha⟩ := kept p hp
      exact ⟨p', hp', ha.id.trans hid, ha.team.trans hr⟩
    · intro c' hc' hr
      obtain ⟨c, hcm, hid, -, htc, ho⟩ := origin c' hc'
      rw [hid, ho]
      exact hi.root c hcm (htc.symm.trans hr)
    · intro c' hc' p' hp' ht
      obtain ⟨c, hcm, hid, -, htc, -⟩ := origin c' hc'
      obtain ⟨p, hp, hpid, -, -, hpo⟩ := origin p' hp'
      rw [hid, hpo]
      exact hi.child c hcm p hp (by rw [← htc, ht, hpid])

theorem init_ownerInv : OwnerInv World.init.keys where
  team := fun _ h => absurd h (Table.not_mem_empty _)
  parent := fun _ h => absurd h (Table.not_mem_empty _)
  root := fun _ h => absurd h (Table.not_mem_empty _)
  child := fun _ h => absurd h (Table.not_mem_empty _)

/-- What holds of the owners on every run. -/
def PayerInv (w : World) : Prop := KeyInv w.keys ∧ MemberInv w.keys ∧ OwnerInv w.keys

theorem step_payerInv (cfg : Config) (w : World) (op : Op) (h : PayerInv w) : PayerInv (w.next cfg op) :=
  ⟨step_keyInv cfg w op h.1, (step_keys cfg w op).memberInv h.1 h.2.1, (step_keys cfg w op).ownerInv h.1 h.2.1 h.2.2⟩

theorem reach_payerInv (cfg : Config) (ops : List Op) : PayerInv (World.reach cfg ops) :=
  run_inv (step_payerInv cfg) ops ⟨init_keyInv, init_memberInv, init_ownerInv⟩

/-- **The charged owner is a member.** All along a run the owner of every live container is a live member of it, exactly
when no operation of the run removes from a team's notebook the member it is charged to. -/
theorem owner_is_member (cfg : Config) (ops : List Op) :
    (∀ bs, bs <+: ops → OwnersAreMembers (World.reach cfg bs).keys) ↔ Along (World.next cfg) KeepsPayer .init ops := by
  have hstep : ∀ w op, PayerInv w ∧ OwnersAreMembers w.keys →
      (PayerInv (w.next cfg op) ∧ OwnersAreMembers (w.next cfg op).keys ↔ KeepsPayer w op) := by
    rintro w op ⟨hp, ho⟩
    rw [step_owners hp.1 hp.2.1 hp.2.2 ho]
    exact and_iff_right (step_payerInv cfg w op hp)
  have hinit : PayerInv World.init ∧ OwnersAreMembers World.init.keys :=
    ⟨reach_payerInv cfg [], fun _ h => absurd h (Table.not_mem_empty _)⟩
  rw [← always_iff_along hstep hinit]
  exact forall₂_congr fun bs _ => (and_iff_right (reach_payerInv cfg bs)).symm

/-- User 1 is an admin of team 2 of user 0, creates notebook 5 in it, and user 0 removes user 1 from the notebook. -/
def removedCreator : List Op :=
  [.key (.createUser .user .active), .key (.createUser .user .active), .key (.createContainer 0 .team none),
   .key (.invite 0 true 2 1 .admin 7 []), .key (.accept 1 3 7), .key (.createContainer 1 .workbook (some 2)),
   .key (.removeMember 0 5 1)]

/-- The notebook stays charged to user 1. -/
theorem removedCreator_charged : ¬OwnersAreMembers (World.reach sampleConfig removedCreator).keys := by
  decide +kernel

end KyNotes
