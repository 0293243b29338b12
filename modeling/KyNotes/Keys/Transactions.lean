import KyNotes.Keys.Invariant

/-!
# Every transaction keeps the invariant of the key tables

One section for each handler family, in the order of `KeyOp`: accounts and identities, containers, envelopes and
rotation, invitations and admission, removal. `keyTx_inv` is the result: the invariant is kept and `Later` respected.
-/

namespace KyNotes

open Relational Check

variable {k k' : KeyTables}

/-! ## Accounts -/

theorem KeyInv.setUsers (h : KeyInv k) (t : Table User.id) : KeyInv { k with users := t } :=
  ⟨h.shared_le, h.range, h.recipient, h.parked⟩

theorem KeyInv.setIdentities (h : KeyInv k) (t : Table UserIdentity.userId) : KeyInv { k with userIdentities := t } :=
  ⟨h.shared_le, h.range, h.recipient, h.parked⟩

theorem revokeDevices_inv (h : KeyInv k) (p : Device → Prop) [DecidablePred p] (now : Stamp) :
    KeyInv (revokeDevices k p now) :=
  h.updateDevices (fun _ => rfl) (fun _ => rfl)

theorem deleteDeviceEnvelopes_inv (h : KeyInv k) (u : UserId) : KeyInv (deleteDeviceEnvelopes k u) :=
  h.deleteEnvelopes _

theorem resetPassword_inv (h : KeyInv k) (u : UserId) (now : Stamp) : KeyInv (resetPassword k u now) :=
  deleteDeviceEnvelopes_inv (revokeDevices_inv h _ now) u

theorem createUser_inv {id : UserId} {a : AccountKind} {s : Status} (h : KeyInv k) (hx : createUser k id a s = .ok k') :
    KeyInv k' ∧ Later k k' := by
  simp only [createUser, bind_ok, fetch_ok, pure_ok] at hx
  obtain ⟨t, -, rfl⟩ := hx
  exact ⟨h.setUsers t, .of_eq rfl rfl⟩

theorem patchUser_inv {id : UserId} {s : Status} {q : Nat} {now : Stamp} (h : KeyInv k)
    (hx : patchUser k id s q now = .ok k') : KeyInv k' ∧ Later k k' := by
  simp only [patchUser, bind_ok, fetch_ok, pure_ok] at hx
  obtain ⟨u, -, rfl⟩ := hx
  split
  · exact ⟨resetPassword_inv (h.setUsers _) id now, .of_eq rfl rfl⟩
  · exact ⟨h.setUsers _, .of_eq rfl rfl⟩

theorem registerDevice_inv {u : UserId} {id : DeviceId} {fp : Nat} (h : KeyInv k)
    (hx : registerDevice k u id fp = .ok k') : KeyInv k' ∧ Later k k' := by
  simp only [registerDevice, bind_ok, require_ok] at hx
  obtain ⟨_, -, hx⟩ := hx
  split at hx
  · simp only [pure_ok] at hx
    subst hx
    exact ⟨h.updateDevices (fun _ => rfl) (fun _ => rfl), .of_eq rfl rfl⟩
  · simp only [bind_ok, require_ok, fetch_ok, pure_ok] at hx
    obtain ⟨_, -, t, ht, rfl⟩ := hx
    exact ⟨h.insertDevice ht, .of_eq rfl rfl⟩

theorem revokeDevice_inv {u : UserId} {id : DeviceId} {now : Stamp} (h : KeyInv k)
    (hx : revokeDevice k u id now = .ok k') : KeyInv k' ∧ Later k k' := by
  simp only [revokeDevice, bind_ok, require_ok, pure_ok] at hx
  obtain ⟨_, -, rfl⟩ := hx
  exact ⟨(h.deleteEnvelopes _).updateDevices (fun _ => rfl) (fun _ => rfl), .of_eq rfl rfl⟩

/-! ## Identities -/

theorem insertIdentity_inv {u : UserId} {id : DeviceId} {fp : Nat} (h : KeyInv k)
    (hx : insertIdentity k u id fp = .ok k') : KeyInv k' ∧ Later k k' := by
  simp only [insertIdentity, bind_ok, require_ok, fetch_ok, pure_ok] at hx
  obtain ⟨_, -, t, ht, i, -, rfl⟩ := hx
  exact ⟨(h.insertDevice ht).setIdentities i, .of_eq rfl rfl⟩

theorem createIdentity_inv {u : UserId} {stepUp : Bool} {id : DeviceId} {fp : Nat} (h : KeyInv k)
    (hx : createIdentity k u stepUp id fp = .ok k') : KeyInv k' ∧ Later k k' := by
  simp only [createIdentity, bind_ok, require_ok] at hx
  obtain ⟨_, -, hx⟩ := hx
  exact insertIdentity_inv h hx

theorem advance_bump (c : Container) : Advance c { c with keyGeneration := c.keyGeneration + 1 } :=
  ⟨rfl, rfl, Nat.le_succ _, fun _ => rfl, fun h => Nat.le_succ_of_le h, fun h => h⟩

theorem retireKeysTx_inv (h : KeyInv k) (u : UserId) : KeyInv (retireKeysTx k u) :=
  (h.updateContainers advance_bump).deleteParked _

theorem retireKeysTx_later (k : KeyTables) (u : UserId) : Later k (retireKeysTx k u) :=
  (Later.updateContainers advance_bump).trans (.of_eq rfl rfl)

/-- The identity goes with its envelopes. -/
theorem deleteIdentityTx_inv (h : KeyInv k) (u : UserId) : KeyInv (deleteIdentityTx k u) := by
  have h₁ := h.deleteEnvelopes fun e => ∃ d ∈ k.devices, d.id = e.deviceId ∧ d.userId = u ∧ d.identity = true
  have h₂ := h₁.setDevices (t := k.devices.delete fun d => d.userId = u ∧ d.identity = true) (by
    intro e he d hd hde
    have hg := (Table.mem_delete.mp he).2
    exact ⟨d, Table.mem_delete.mpr ⟨hd, fun hx => hg ⟨d, hd, hde, hx⟩⟩, rfl, rfl⟩)
  exact (h₂.setIdentities _).deleteParked _

theorem deleteIdentityTx_later (k : KeyTables) (u : UserId) : Later k (deleteIdentityTx k u) := .of_eq rfl rfl

theorem resetIdentity_inv {u : UserId} {a b : Bool} {expected : Option DeviceId} {id : DeviceId} {fp : Nat}
    {now : Stamp} (h : KeyInv k) (hx : resetIdentity k u a b expected id fp now = .ok k') :
    KeyInv k' ∧ Later k k' := by
  simp only [resetIdentity, bind_ok, require_ok] at hx
  obtain ⟨_, -, _, -, _, -, _, -, hx⟩ := hx
  have h₁ := deleteDeviceEnvelopes_inv (revokeDevices_inv h (fun d => d.userId = u) now) u
  have h₂ := insertIdentity_inv (deleteIdentityTx_inv (retireKeysTx_inv h₁ u) u) hx
  refine ⟨h₂.1, ?_⟩
  have hl₁ : Later k (deleteDeviceEnvelopes (revokeDevices k (fun d => d.userId = u) now) u) := .of_eq rfl rfl
  have hl₂ := hl₁.trans (retireKeysTx_later _ u)
  exact (hl₂.trans (deleteIdentityTx_later _ u)).trans h₂.2

/-! ## Containers -/

theorem createRoot_inv {id : ContainerId} {kind : Kind} {u : UserId} (h : KeyInv k)
    (hx : createRoot k id kind u = .ok k') : KeyInv k' ∧ Later k k' := by
  simp only [createRoot, bind_ok, fetch_ok, pure_ok] at hx
  obtain ⟨_, -, t, ht, m, hm, rfl⟩ := hx
  have h₁ := h.insertContainer ht (by simp [newContainer])
  refine ⟨h₁.setMemberships fun e _ d _ _ c _ _ _ ha => approvedIn_insert (k := { k with containers := t }) hm ha, ?_⟩
  exact (Later.insertContainer ht).trans
    (.setMemberships fun u c _ _ ha => approvedIn_insert (k := { k with containers := t }) hm ha)

theorem createChild_inv {id : ContainerId} {kind : Kind} {u : UserId} {team : ContainerId} (h : KeyInv k)
    (hx : createChild k id kind u team = .ok k') : KeyInv k' ∧ Later k k' := by
  simp only [createChild, bind_ok, require_ok, fetch_ok, pure_ok] at hx
  obtain ⟨_, -, _, -, _, -, _, -, _, -, t, ht, rfl⟩ := hx
  have h₁ := h.insertContainer ht (by simp [newContainer])
  refine ⟨h₁.setMemberships fun e _ d _ _ c _ _ _ ha => approvedIn_insertAll (k := { k with containers := t }) ha, ?_⟩
  exact (Later.insertContainer ht).trans
    (.setMemberships fun u c _ _ ha => approvedIn_insertAll (k := { k with containers := t }) ha)

theorem createContainer_inv {id : ContainerId} {kind : Kind} {u : UserId} {team : Option ContainerId} (h : KeyInv k)
    (hx : createContainer k id kind u team = .ok k') : KeyInv k' ∧ Later k k' := by
  cases team with
  | none => exact createRoot_inv h hx
  | some t => exact createChild_inv h hx

theorem adminCreateTeam_inv {id : ContainerId} {u : UserId} (h : KeyInv k) (hx : adminCreateTeam k id u = .ok k') :
    KeyInv k' ∧ Later k k' := by
  simp only [adminCreateTeam, bind_ok, require_ok] at hx
  obtain ⟨_, -, hx⟩ := hx
  exact createRoot_inv h hx

theorem renameContainer_inv {u : UserId} {cid : ContainerId} {scheme : Bool} {g : Option Nat} {base : Nat}
    (h : KeyInv k) (hx : renameContainer k u cid scheme g base = .ok k') : KeyInv k' ∧ Later k k' := by
  simp only [renameContainer, bind_ok, require_ok, fetch_ok, pure_ok] at hx
  obtain ⟨_, -, _, -, _, -, _, -, _, -, _, -, rfl⟩ := hx
  have hf : ∀ c : Container, Advance c { c with metaVersion := c.metaVersion + 1 } :=
    fun c => ⟨rfl, rfl, Nat.le_refl _, fun _ => rfl, fun h => h, fun h => h⟩
  exact ⟨h.updateContainers hf, .updateContainers hf⟩

theorem tombstoneContainers_inv (h : KeyInv k) (cid : ContainerId) (now : Stamp) :
    KeyInv (tombstoneContainers k cid now) ∧ Later k (tombstoneContainers k cid now) := by
  have hf : ∀ c : Container, Advance c { c with deletedAt := some now } :=
    fun c => ⟨rfl, rfl, Nat.le_refl _, fun _ => rfl, fun h => h, fun h => nomatch h⟩
  exact ⟨h.updateContainers hf, .updateContainers hf⟩

/-! ## Envelopes -/

/-- Whether an envelope may be stored depends on its key alone. -/
theorem Storable.of_key {e e' : KeyEnvelope} (h : Storable k e) (he : e.key = e'.key) : Storable k e' := by
  simp only [KeyEnvelope.key, Prod.mk.injEq] at he
  obtain ⟨hc, hd, hg⟩ := he
  exact ⟨by rw [← hc, ← hg]; exact h.range, by rw [← hc, ← hd]; exact h.recipient⟩

/-- A stored envelope has the key of an old one, or its recipient is a device of a live approved member. -/
theorem insertEnvelopeTx_spec {cid : ContainerId} {g : Nat} {caller : UserId} {role : Role} {v : EnvelopeIn}
    (hx : insertEnvelopeTx cid g caller role k v = .ok k') :
    ∃ t, k' = { k with keyEnvelopes := t } ∧ ∀ e ∈ t, (∃ e₀ ∈ k.keyEnvelopes, e₀.key = e.key) ∨
      (e.containerId = cid ∧ e.keyGeneration = g ∧ ∃ d ∈ k.devices, d.id = e.deviceId ∧ ApprovedIn k d.userId cid) := by
  simp only [insertEnvelopeTx, bind_ok, require_ok, fetch_ok] at hx
  obtain ⟨env, -, _, -, d, hd, _, ⟨ha, -⟩, _, -, hx⟩ := hx
  obtain ⟨hd, -⟩ := Option.filter_eq_some_iff.mp hd
  split at hx
  · simp only [pure_ok] at hx
    subst hx
    refine ⟨_, rfl, fun e he => Or.inl ?_⟩
    rcases Table.mem_update_cases he with ⟨he, -⟩ | ⟨e₀, he₀, -, rfl⟩
    · exact ⟨e, he, rfl⟩
    · exact ⟨e₀, he₀, rfl⟩
  · simp only [bind_ok, require_ok, fetch_ok, pure_ok] at hx
    obtain ⟨_, -, t, ht, rfl⟩ := hx
    refine ⟨t, rfl, fun e he => ?_⟩
    rcases (Table.mem_insert ht).mp he with he | rfl
    · exact Or.inl ⟨e, he, rfl⟩
    · exact Or.inr ⟨rfl, rfl, d, Table.get_mem hd, Table.get_key hd, ha⟩

/-- The container has been keyed, and the generation is one of its shared ones. -/
def Shared (k : KeyTables) (cid : ContainerId) (g : Nat) : Prop :=
  ∃ c ∈ k.containers, c.id = cid ∧ 0 < c.sharedGeneration ∧ c.sharedGeneration ≤ g ∧ g ≤ c.keyGeneration

theorem insertEnvelopeTx_inv {cid : ContainerId} {g : Nat} {caller : UserId} {role : Role} {v : EnvelopeIn}
    (h : KeyInv k) (hg : Shared k cid g) (hx : insertEnvelopeTx cid g caller role k v = .ok k') :
    KeyInv k' ∧ k'.containers = k.containers ∧ k'.memberships = k.memberships := by
  obtain ⟨t, rfl, ht⟩ := insertEnvelopeTx_spec hx
  refine ⟨h.setEnvelopes fun e he => ?_, rfl, rfl⟩
  rcases ht e he with ⟨e₀, he₀, hk⟩ | ⟨rfl, rfl, d, hd, hde, ha⟩
  · exact (h.storable he₀).of_key hk
  · exact ⟨hg, d, hd, hde, fun c _ hc _ => by rw [hc]; exact ha⟩

/-- What a loop over envelopes keeps. -/
def EnvelopeLoop (k k₁ : KeyTables) : Prop :=
  KeyInv k₁ ∧ k₁.containers = k.containers ∧ k₁.memberships = k.memberships

theorem EnvelopeLoop.later {k₁ : KeyTables} (h : EnvelopeLoop k k₁) : Later k k₁ := .of_eq h.2.1 h.2.2

theorem putGenerationTx_shared {cid : ContainerId} {current requested g : Nat} {c : Container}
    (hc : k.containers.get cid = some c) (hcur : c.keyGeneration = current)
    (hx : putGenerationTx k cid current requested = .ok g) : Shared k cid g := by
  simp only [putGenerationTx, bind_ok, require_ok, fetch_ok, pure_ok] at hx
  obtain ⟨c', hc', _, hs, _, ⟨h1, h2⟩, _, -, rfl⟩ := hx
  rw [hc] at hc'
  cases hc'
  exact ⟨c, Table.get_mem hc, Table.get_key hc, by omega, h1, by omega⟩

theorem putEnvelopes_inv {caller : UserId} {stepUp : Bool} {cid : ContainerId} {vs : List EnvelopeIn} (h : KeyInv k)
    (hx : putEnvelopes k caller stepUp cid vs = .ok k') : KeyInv k' ∧ Later k k' := by
  simp only [putEnvelopes, bind_ok, require_ok] at hx
  obtain ⟨_, -, ⟨role, g⟩, hm, hx⟩ := hx
  obtain ⟨-, c, hc, -, hg⟩ := memberTx_ok hm
  have hl : EnvelopeLoop k k' := by
    refine forEach_inv (P := EnvelopeLoop k) ?_ ⟨h, rfl, rfl⟩ hx
    rintro k₁ v k₂ ⟨h₁, hc₁, hm₁⟩ hs
    simp only [putEnvelopeTx, bind_ok] at hs
    obtain ⟨target, ht, hs⟩ := hs
    obtain ⟨h₂, hc₂, hm₂⟩ := insertEnvelopeTx_inv h₁ (putGenerationTx_shared (by rw [hc₁]; exact hc) hg ht) hs
    exact ⟨h₂, hc₂.trans hc₁, hm₂.trans hm₁⟩
  exact ⟨hl.1, hl.later⟩

theorem advance_mint (c : Container) :
    Advance c { c with
      keyGeneration := c.keyGeneration + 1,
      sharedGeneration := if c.sharedGeneration = 0 then c.keyGeneration + 1 else c.sharedGeneration } where
  id := rfl
  team := rfl
  gen := Nat.le_succ _
  shared := fun h => if_neg h
  shared_le := fun h => by simp only; split <;> omega
  live := fun h => h

theorem mintGeneration_inv (h : KeyInv k) (cid : ContainerId) :
    KeyInv (mintGeneration k cid) ∧ Later k (mintGeneration k cid) :=
  ⟨h.updateContainers advance_mint, .updateContainers advance_mint⟩

/-- The minted generation is shared. -/
theorem mintGeneration_shared (h : KeyInv k) {cid : ContainerId} {c : Container} (hc : k.containers.get cid = some c) :
    Shared (mintGeneration k cid) cid (c.keyGeneration + 1) := by
  have hm := Table.get_mem hc
  have hle := h.shared_le c hm
  have hid : c.id = cid := Table.get_key hc
  refine ⟨_, Table.mem_update_of hm hid, hid, ?_, ?_, Nat.le_refl _⟩
  · simp only; split <;> omega
  · simp only; split <;> omega

theorem rotationEnvelopeTx_ok {cid : ContainerId} {next : Nat} {caller : UserId} {role : Role} {v : EnvelopeIn}
    (hx : rotationEnvelopeTx cid next caller role k v = .ok k') :
    insertEnvelopeTx cid next caller role k v = .ok k' := by
  unfold rotationEnvelopeTx at hx
  split at hx
  · cases hx
  · exact hx

theorem rotateKeys_inv {caller : UserId} {stepUp : Bool} {cid : ContainerId} {expected : Nat} {vs : List EnvelopeIn}
    {next : Nat} (h : KeyInv k) (hx : rotateKeys k caller stepUp cid expected vs = .ok (k', next)) :
    KeyInv k' ∧ Later k k' := by
  simp only [rotateKeys, bind_ok, require_ok, fetch_ok, pure_ok, Prod.mk.injEq] at hx
  obtain ⟨_, -, _, -, ⟨role, g⟩, -, _, -, c, hc, k₁, hl, _, -, rfl, -⟩ := hx
  obtain ⟨hc, -⟩ := Option.filter_eq_some_iff.mp hc
  obtain ⟨h₀, hl₀⟩ := mintGeneration_inv h cid
  have hs := mintGeneration_shared h hc
  have hloop : EnvelopeLoop (mintGeneration k cid) k₁ := by
    refine forEach_inv (P := EnvelopeLoop (mintGeneration k cid)) ?_ ⟨h₀, rfl, rfl⟩ hl
    rintro k₂ v k₃ ⟨h₂, hc₂, hm₂⟩ hv
    obtain ⟨h₃, hc₃, hm₃⟩ :=
      insertEnvelopeTx_inv h₂ (by unfold Shared; rw [hc₂]; exact hs) (rotationEnvelopeTx_ok hv)
    exact ⟨h₃, hc₃.trans hc₂, hm₃.trans hm₂⟩
  exact ⟨hloop.1.deleteParked _, (hl₀.trans hloop.later).trans (.of_eq rfl rfl)⟩

/-! ## Invitations -/

/-- The invitation stays, and what is parked on it is in its scope. -/
theorem insertInvitationEnvelopeTx_inv {i : Invitation} {v : InvitationEnvelopeIn} {inviter invitee : UserId}
    (h : KeyInv k) (hi : i ∈ k.invitations)
    (hx : insertInvitationEnvelopeTx i.id i.containerId inviter invitee k v = .ok k') :
    KeyInv k' ∧ k'.containers = k.containers ∧ k'.memberships = k.memberships ∧ k'.invitations = k.invitations := by
  simp only [insertInvitationEnvelopeTx, bind_ok, require_ok, fetch_ok, pure_ok] at hx
  obtain ⟨env, -, m, -, c, hc, _, -, _, -, _, -, _, -, t, ht, rfl⟩ := hx
  obtain ⟨hc, hsc⟩ := Option.filter_eq_some_iff.mp hc
  obtain ⟨hc, -⟩ := liveContainer_some hc
  refine ⟨h.setParked fun e he => ?_, rfl, rfl, rfl⟩
  rcases (Table.mem_insert ht).mp he with he | rfl
  · exact h.parked e he
  · exact ⟨i, hi, rfl, c, Table.get_mem hc, Table.get_key hc, by simpa using hsc⟩

theorem invite_inv {inviter : UserId} {stepUp : Bool} {id : InvitationId} {cid : ContainerId} {invitee : UserId}
    {role : Role} {token : Nat} {vs : List InvitationEnvelopeIn} {clock : Time} (h : KeyInv k)
    (hx : invite k inviter stepUp id cid invitee role token vs clock = .ok k') : KeyInv k' ∧ Later k k' := by
  simp only [invite, bind_ok, require_ok, fetch_ok] at hx
  obtain ⟨_, -, ⟨r, g⟩, -, _, -, _, -, t, ht, hx⟩ := hx
  have h₀ : KeyInv { k with invitations := t } := by
    refine h.setParked (i := t) fun e he => ?_
    obtain ⟨x, hx, hxe⟩ := h.parked e he
    exact ⟨x, (Table.mem_insert ht).mpr (Or.inl hx), hxe⟩
  have hl : KeyInv k' ∧ k'.containers = k.containers ∧ k'.memberships = k.memberships ∧ k'.invitations = t := by
    refine forEach_inv (P := fun k₁ => KeyInv k₁ ∧ k₁.containers = k.containers ∧
      k₁.memberships = k.memberships ∧ k₁.invitations = t) ?_ ⟨h₀, rfl, rfl, rfl⟩ hx
    rintro k₁ v k₂ ⟨h₁, hc₁, hm₁, hi₁⟩ hv
    have hmem : (⟨id, cid, inviter, invitee, token, role, .pending, format (clock + day)⟩ : Invitation) ∈
        k₁.invitations := by
      rw [hi₁]; exact (Table.mem_insert ht).mpr (Or.inr rfl)
    obtain ⟨h₂, hc₂, hm₂, hi₂⟩ := insertInvitationEnvelopeTx_inv h₁ hmem hv
    exact ⟨h₂, hc₂.trans hc₁, hm₂.trans hm₁, hi₂.trans hi₁⟩
  exact ⟨hl.1, .of_eq hl.2.1 hl.2.2.1⟩

/-! ## Admission -/

/-- What an admission does: nobody loses an approved membership, and an approved newcomer is a live approved member of
every live container in scope. -/
theorem admitMemberTx_spec {cid : ContainerId} {u : UserId} {role : Role} {by' : Option UserId} {approved : Bool}
    (hx : admitMemberTx k cid u role by' approved = .ok k') :
    ∃ t, k' = { k with memberships := t } ∧
      (∀ x c, ApprovedIn k x c → ApprovedIn k' x c) ∧
      (approved = true → ∀ c ∈ k.containers, InLiveScope k cid c.id → ApprovedIn k' u c.id) := by
  simp only [admitMemberTx, bind_ok, require_ok, pure_ok] at hx
  obtain ⟨_, hnone, rfl⟩ := hx
  refine ⟨_, rfl, ?_, ?_⟩
  · rintro x c ⟨m, hm, rfl, rfl, hr, ha⟩
    -- a row that the update hits was revoked
    refine approvedIn_insertAll (k := { k with memberships := _ })
      ⟨m, Table.mem_update_of_not hm ?_, rfl, rfl, hr, ha⟩
    rintro ⟨hu, c, hc, hcm, hs, -⟩
    exact hnone ⟨m, hm, hu, hr, c, hc, hcm, hs⟩
  · rintro rfl c hc hs
    cases hg : k.memberships.get (c.id, u) with
    | some m =>
      obtain ⟨hm, hk⟩ := Table.get_eq_some.mp hg
      simp only [Membership.key, Prod.mk.injEq] at hk
      refine approvedIn_insertAll (k := { k with memberships := _ })
        ⟨_, Table.mem_update_of hm ⟨hk.2, ?_⟩, ?_⟩
      · rw [hk.1]; exact hs
      · exact ⟨hk.1, hk.2, rfl, rfl⟩
    | none =>
      let row : Membership := ⟨c.id, u, role, none, by', true, none⟩
      refine ⟨row, Table.get_mem (Table.get_insertAll_of_mem (r := row) ?_ ?_ ?_), rfl, rfl, rfl, rfl⟩
      · refine List.mem_map.mpr ⟨c, List.mem_filter.mpr ⟨hc, by simpa using hs⟩, rfl⟩
      · intro m hm hk
        obtain ⟨x, -, rfl⟩ := List.mem_map.mp hm
        simp only [Membership.key, Prod.mk.injEq] at hk
        simp [row, hk.1]
      · rw [show row.key = (c.id, u) from rfl, Table.get_update, hg]
        rfl

theorem admitMemberTx_inv {cid : ContainerId} {u : UserId} {role : Role} {by' : Option UserId} {approved : Bool}
    (h : KeyInv k) (hx : admitMemberTx k cid u role by' approved = .ok k') : KeyInv k' ∧ Later k k' := by
  obtain ⟨t, rfl, ha, -⟩ := admitMemberTx_spec hx
  exact ⟨h.setMemberships fun _ _ d _ _ c _ _ _ => ha d.userId c.id, .setMemberships fun u c _ _ => ha u c.id⟩

theorem adminAddMember_inv {cid : ContainerId} {u : UserId} {role : Role} (h : KeyInv k)
    (hx : adminAddMember k cid u role = .ok k') : KeyInv k' ∧ Later k k' := by
  simp only [adminAddMember, bind_ok, require_ok] at hx
  obtain ⟨_, -, _, -, hx⟩ := hx
  exact admitMemberTx_inv h hx

/-- An update of memberships that approves and revokes nothing keeps who is approved. -/
theorem approvedIn_update {p : Membership → Prop} [DecidablePred p] {f : Membership → Membership}
    (u : UserId) (c : ContainerId) (hf : ∀ m, (f m).key = m.key) (ha : ∀ m, (f m).approved = true)
    (hr : ∀ m, m.revokedAt = none → (f m).revokedAt = none) (h : ApprovedIn k u c) :
    ApprovedIn { k with memberships := k.memberships.update p f } u c := by
  obtain ⟨m, hm, rfl, rfl, hrm, ham⟩ := h
  by_cases hp : p m
  · have hk := hf m
    simp only [Membership.key, Prod.mk.injEq] at hk
    exact ⟨f m, Table.mem_update_of hm hp hf, hk.1, hk.2, hr m hrm, ha m⟩
  · exact ⟨m, Table.mem_update_of_not hm hp, rfl, rfl, hrm, ham⟩

theorem approveMember_inv {caller : UserId} {cid : ContainerId} {target : UserId} (h : KeyInv k)
    (hx : approveMember k caller cid target = .ok k') : KeyInv k' ∧ Later k k' := by
  simp only [approveMember, bind_ok, require_ok, fetch_ok, pure_ok] at hx
  obtain ⟨_, -, _, -, _, -, _, -, rfl⟩ := hx
  exact ⟨h.setMemberships fun _ _ d _ _ c _ _ _ => approvedIn_update d.userId c.id (fun _ => rfl) (fun _ => rfl) fun _ h => h,
    .setMemberships fun u c _ _ => approvedIn_update u c.id (fun _ => rfl) (fun _ => rfl) fun _ h => h⟩

/-- The parked envelopes of an invitation are in its scope; where the invitee is approved they may be stored. -/
theorem moveInvitationEnvelopesTx_inv {i : Invitation} {u : UserId} (h : KeyInv k) (hi : i ∈ k.invitations)
    (hu : ∀ c ∈ k.containers, InLiveScope k i.containerId c.id → ApprovedIn k u c.id) :
    KeyInv (moveInvitationEnvelopesTx k i.id u) := by
  refine (h.setEnvelopes (t := (moveInvitationEnvelopesTx k i.id u).keyEnvelopes) fun e he => ?_).deleteParked
    fun e => e.invitationId = i.id
  rcases Table.mem_of_mem_insertAll he with he | he
  · exact h.storable he
  · obtain ⟨p, hp, rfl⟩ := List.mem_map.mp he
    obtain ⟨hp, hin⟩ := List.mem_filter.mp hp
    obtain ⟨hpi, ⟨c, hc, hce, hcg, hcs, hcl⟩, d, hd, hde, hdu, -, -⟩ : Installable k i.id u p := by simpa using hin
    obtain ⟨i', hi', hid', c', hc', hce', hsc⟩ := h.parked p hp
    have hii : i' = i := Table.eq_of_key hi' hi (hid'.trans hpi)
    subst hii
    have hcc : c' = c := Table.eq_of_key hc' hc (hce'.trans hce.symm)
    subst hcc
    have hle := h.shared_le c' hc
    refine ⟨⟨c', hc, hce, hcs, by simp only; omega, Nat.le_of_eq hcg.symm⟩, d, hd, hde, fun x hx hxe _ => ?_⟩
    have hxc : x = c' := Table.eq_of_key hx hc (hxe.trans hce.symm)
    subst hxc
    rw [hdu]
    exact hu x hc ⟨x, hc, rfl, hsc, hcl⟩

theorem accept_inv {u : UserId} {id : InvitationId} {token : Nat} {now : Stamp} (h : KeyInv k)
    (hx : accept k u id token now = .ok k') : KeyInv k' ∧ Later k k' := by
  simp only [accept, bind_ok, require_ok, fetch_ok, pure_ok] at hx
  obtain ⟨i, hi, m, -, _, -, k₂, hk₂, rfl⟩ := hx
  obtain ⟨hg, -⟩ := Option.filter_eq_some_iff.mp hi
  obtain ⟨hm, rfl⟩ := Table.get_eq_some.mp hg
  let accepted := k.invitations.update (fun j => j.id = i.id) fun j => { j with status := .accepted }
  have h₁ : KeyInv { k with invitations := accepted } := by
    refine h.setParked (i := accepted) fun e he => ?_
    obtain ⟨x, hx, hxe, hs⟩ := h.parked e he
    by_cases hp : x.id = i.id
    · exact ⟨_, Table.mem_update_of hx hp, hxe, hs⟩
    · exact ⟨x, Table.mem_update_of_not hx hp, hxe, hs⟩
  obtain ⟨h₂, hl₂⟩ := admitMemberTx_inv h₁ hk₂
  obtain ⟨t, rfl, -, hnew⟩ := admitMemberTx_spec hk₂
  have hi₂ : { i with status := .accepted } ∈ accepted := Table.mem_update_of hm rfl
  have hl₁ : Later k { k with invitations := accepted } := .of_eq rfl rfl
  exact ⟨moveInvitationEnvelopesTx_inv (i := { i with status := .accepted }) h₂ hi₂ fun c hc hs => hnew rfl c hc hs,
    (hl₁.trans hl₂).trans (.of_eq rfl rfl)⟩

/-! ## Removal -/

theorem dropStaleInvitationEnvelopes_inv (h : KeyInv k) (s : ContainerId → Prop) [DecidablePred s] :
    KeyInv (dropStaleInvitationEnvelopes k s) :=
  h.deleteParked _

/-- An invitation goes with its envelopes. -/
theorem deleteInvitations_inv (h : KeyInv k) (p : Invitation → Prop) [DecidablePred p] :
    KeyInv (deleteInvitations k p) := by
  refine h.setParked fun e he => ?_
  obtain ⟨he, hn⟩ := Table.mem_delete.mp he
  obtain ⟨i, hi, hie, hs⟩ := h.parked e he
  exact ⟨i, Table.mem_delete.mpr ⟨hi, fun hp => hn ⟨i, hi, hie, hp⟩⟩, hie, hs⟩

/-- After the first three statements of a removal: a member of a live container who is not the target in scope stays. -/
theorem revokeMember_inv (h : KeyInv k) (cid : ContainerId) (target : UserId) (now : Stamp) :
    KeyInv (revokeMember k cid target now) := by
  have h₁ := h.deleteEnvelopes fun e => InScope k cid e.containerId ∧ OwnsDevice k target e.deviceId
  have h₂ := h₁.setMemberships (t := k.memberships.update
      (fun m => (m.containerId = cid ∨ InScope k cid m.containerId) ∧ m.userId = target ∧ m.revokedAt = none)
      fun m => { m with revokedAt := some now }) (by
    rintro e he d hd hde c hc hce - ⟨m, hm, hmc, hmu, hr, ha⟩
    refine ⟨m, Table.mem_update_of_not hm ?_, hmc, hmu, hr, ha⟩
    rintro ⟨hs, ht, -⟩
    -- the target's envelopes in scope are gone
    refine (Table.mem_delete.mp he).2 ⟨?_, d, hd, hde, by rw [← hmu]; exact ht⟩
    rw [hmc] at hs
    rcases hs with hs | hs
    · exact ⟨c, hc, hce, Or.inl hs⟩
    · rw [← hce]; exact hs)
  have h₃ := h₂.updateContainers (p := Retires cid) advance_bump
  have h₄ := dropStaleInvitationEnvelopes_inv (deleteInvitations_inv h₃ fun i =>
    InScope k cid i.containerId ∧ (i.inviteeId = target ∨ i.inviterId = target) ∧ i.status = .pending) (InScope k cid)
  exact h₄.updateContainers fun c => ⟨rfl, rfl, Nat.le_refl _, fun _ => rfl, fun h => h, fun h => h⟩

/-- Who loses a membership by a removal loses it in a container that moves to the next generation. -/
theorem revokeMember_later (k : KeyTables) (cid : ContainerId) (target : UserId) (now : Stamp) :
    Later k (revokeMember k cid target now) := by
  let k₁ : KeyTables := { k with
    memberships := k.memberships.update
      (fun m => (m.containerId = cid ∨ InScope k cid m.containerId) ∧ m.userId = target ∧ m.revokedAt = none)
      (fun m => { m with revokedAt := some now })
    containers := k.containers.update (Retires cid) fun c => { c with keyGeneration := c.keyGeneration + 1 } }
  have hl : Later k k₁ := by
    refine ⟨fun c hc => update_advance_mem advance_bump hc, ?_⟩
    intro u c hc c' hc' hid hl ha
    by_cases hr : Retires cid c
    · right
      have : c' = { c with keyGeneration := c.keyGeneration + 1 } :=
        Table.eq_of_key hc' (Table.mem_update_of hc hr) hid
      rw [this]
      exact Nat.lt_succ_self _
    · left
      have hcc : c' = c := Table.eq_of_key hc' (Table.mem_update_of_not hc hr) hid
      subst hcc
      obtain ⟨m, hm, hmc, hmu, hrv, hap⟩ := ha
      refine ⟨m, Table.mem_update_of_not hm ?_, hmc, hmu, hrv, hap⟩
      rintro ⟨hs, -, -⟩
      rw [hmc] at hs
      rcases hs with hs | ⟨x, hx, hxc, hs⟩
      · exact hr (Or.inl hs)
      · have : x = c' := Table.eq_of_key hx hc hxc
        subst this
        rcases hs with hs | hs
        · exact hr (Or.inl hs)
        · exact hr (Or.inr ⟨hs, hl⟩)
  have hcharge := Later.updateContainers (k := k₁)
    (p := fun c => c.teamId = some cid ∧ c.ownerUserId = target)
    (f := fun c => { c with ownerUserId := ((k.containers.get cid).map Container.ownerUserId).getD c.ownerUserId })
    fun c => ⟨rfl, rfl, Nat.le_refl _, fun _ => rfl, fun h => h, fun h => h⟩
  exact (hl.trans hcharge).trans (.of_eq rfl rfl)

theorem removeMemberTx_inv {cid : ContainerId} {target : UserId} {now : Stamp} (h : KeyInv k)
    (hx : removeMemberTx k cid target now = .ok k') : KeyInv k' ∧ Later k k' := by
  simp only [removeMemberTx, bind_ok, require_ok, fetch_ok, pure_ok] at hx
  obtain ⟨_, -, _, -, rfl⟩ := hx
  exact ⟨revokeMember_inv h cid target now, revokeMember_later k cid target now⟩

theorem removeMember_inv {caller : UserId} {cid : ContainerId} {target : UserId} {now : Stamp} (h : KeyInv k)
    (hx : removeMember k caller cid target now = .ok k') : KeyInv k' ∧ Later k k' := by
  simp only [removeMember, bind_ok, require_ok, fetch_ok] at hx
  obtain ⟨_, -, _, -, _, -, _, -, _, -, hx⟩ := hx
  exact removeMemberTx_inv h hx

/-! ## All of them -/

/-- Every transaction on the key tables keeps the invariant and respects `Later`. -/
theorem keyTx_inv {op : KeyOp} {id : Nat} {clock : Time} (h : KeyInv k) (hx : keyTx op k id clock = .ok k') :
    KeyInv k' ∧ Later k k' := by
  cases op with
  | createUser a s => exact createUser_inv h hx
  | patchUser u s q => exact patchUser_inv h hx
  | resetPassword u => cases hx; exact ⟨resetPassword_inv h u _, .of_eq rfl rfl⟩
  | endCredentials ids => cases hx; exact ⟨revokeDevices_inv h _ _, .of_eq rfl rfl⟩
  | setStatus u s => cases hx; exact ⟨h.setUsers _, .of_eq rfl rfl⟩
  | registerDevice u fp => exact registerDevice_inv h hx
  | revokeDevice u d => exact revokeDevice_inv h hx
  | createIdentity u stepUp fp => exact createIdentity_inv h hx
  | resetIdentity u a b expected fp => exact resetIdentity_inv h hx
  | createContainer u kind team => exact createContainer_inv h hx
  | adminCreateTeam owner => exact adminCreateTeam_inv h hx
  | rename u cid scheme g base => exact renameContainer_inv h hx
  | rotate u stepUp cid expected vs =>
    obtain ⟨⟨k₁, next⟩, hr, rfl⟩ := map_ok hx
    exact rotateKeys_inv h hr
  | putEnvelopes u stepUp cid vs => exact putEnvelopes_inv h hx
  | invite u stepUp cid invitee role token vs => exact invite_inv h hx
  | accept u i token => exact accept_inv h hx
  | approve u cid target => exact approveMember_inv h hx
  | removeMember u cid target => exact removeMember_inv h hx
  | adminRemoveMember cid target => exact removeMemberTx_inv h hx
  | adminAddMember cid u role => exact adminAddMember_inv h hx

end KyNotes
