import KyNotes.Lib.Check
import KyNotes.Server.Schema

/-!
# Team keys and membership (`teamkeys_routes.go`, `collab_routes.go`, `device_routes.go`)

Every function here is the part of a transaction that reads and writes the key tables; an error is a rollback. The
advance of `change_seq` that some of these statements make is in `System.lean`.
-/

namespace KyNotes

open Relational Check

/-! ## Lookups -/

/-- `SELECT ... FROM memberships WHERE container_id=? AND user_id=? AND revoked_at=''`. -/
def liveMember (k : KeyTables) (cid : ContainerId) (userId : UserId) : Option Membership :=
  (k.memberships.get (cid, userId)).filter fun m => m.revokedAt = none

/-- The role of a live member. -/
def liveRole (k : KeyTables) (cid : ContainerId) (userId : UserId) : Option Role :=
  (liveMember k cid userId).map Membership.role

/-- The live container with an id. -/
def liveContainer (k : KeyTables) (cid : ContainerId) : Option Container :=
  (k.containers.get cid).filter fun c => c.deletedAt = none

/-- `c.team_id='' OR EXISTS(... parent.deleted_at='')`. -/
def parentLive (k : KeyTables) (c : Container) : Bool :=
  match c.teamId with
  | none => true
  | some t => (liveContainer k t).isSome

/-- `memberTx`: the caller's role and the live container's current generation. -/
def memberTx (k : KeyTables) (cid : ContainerId) (userId : UserId) : Except Err (Role × Nat) := do
  let m ← fetch (liveMember k cid userId) .notMember
  let c ← fetch (liveContainer k cid) .notMember
  require (parentLive k c) .notMember
  pure (m.role, c.keyGeneration)

/-- `SELECT id FROM containers WHERE id=?1 OR team_id=?1` holds `x`. -/
def InScope (k : KeyTables) (cid x : ContainerId) : Prop :=
  ∃ c ∈ k.containers, c.id = x ∧ (c.id = cid ∨ c.teamId = some cid)

instance (k : KeyTables) (cid x : ContainerId) : Decidable (InScope k cid x) :=
  inferInstanceAs (Decidable (∃ c ∈ k.containers, c.id = x ∧ (c.id = cid ∨ c.teamId = some cid)))

/-- `SELECT id FROM containers WHERE (id=?1 OR team_id=?1) AND deleted_at=''` holds `x`. -/
def InLiveScope (k : KeyTables) (cid x : ContainerId) : Prop :=
  ∃ c ∈ k.containers, c.id = x ∧ (c.id = cid ∨ c.teamId = some cid) ∧ c.deletedAt = none

instance (k : KeyTables) (cid x : ContainerId) : Decidable (InLiveScope k cid x) :=
  inferInstanceAs (Decidable (∃ c ∈ k.containers, c.id = x ∧ (c.id = cid ∨ c.teamId = some cid) ∧ c.deletedAt = none))

/-- `device_id IN (SELECT id FROM devices WHERE user_id=?)`. -/
def OwnsDevice (k : KeyTables) (userId : UserId) (d : DeviceId) : Prop := ∃ x ∈ k.devices, x.id = d ∧ x.userId = userId

instance (k : KeyTables) (userId : UserId) (d : DeviceId) : Decidable (OwnsDevice k userId d) :=
  inferInstanceAs (Decidable (∃ x ∈ k.devices, x.id = d ∧ x.userId = userId))

/-- `container_id IN (SELECT container_id FROM memberships WHERE user_id=? AND revoked_at='' AND approved=1)`. -/
def ApprovedIn (k : KeyTables) (userId : UserId) (cid : ContainerId) : Prop :=
  ∃ m ∈ k.memberships, m.containerId = cid ∧ m.userId = userId ∧ m.revokedAt = none ∧ m.approved = true

instance (k : KeyTables) (userId : UserId) (cid : ContainerId) : Decidable (ApprovedIn k userId cid) :=
  inferInstanceAs (Decidable (∃ m ∈ k.memberships, m.containerId = cid ∧ m.userId = userId ∧ m.revokedAt = none ∧
    m.approved = true))

/-- `ownIdentityEnvelopeSQL`: the user's own live identity holds an envelope at the generation. -/
def OwnIdentityEnvelope (k : KeyTables) (userId : UserId) (cid : ContainerId) (generation : Nat) : Prop :=
  ∃ e ∈ k.keyEnvelopes, e.containerId = cid ∧ e.keyGeneration = generation ∧
    ∃ d ∈ k.devices, d.id = e.deviceId ∧ d.identity = true ∧ d.revokedAt = none ∧ d.userId = userId

instance (k : KeyTables) (userId : UserId) (cid : ContainerId) (generation : Nat) :
    Decidable (OwnIdentityEnvelope k userId cid generation) :=
  inferInstanceAs (Decidable (∃ e ∈ k.keyEnvelopes, e.containerId = cid ∧ e.keyGeneration = generation ∧
    ∃ d ∈ k.devices, d.id = e.deviceId ∧ d.identity = true ∧ d.revokedAt = none ∧ d.userId = userId))

/-- The user is `status='active'`. -/
def ActiveUser (k : KeyTables) (userId : UserId) : Prop := ∃ u ∈ k.users, u.id = userId ∧ u.status = .active

instance (k : KeyTables) (userId : UserId) : Decidable (ActiveUser k userId) :=
  inferInstanceAs (Decidable (∃ u ∈ k.users, u.id = userId ∧ u.status = .active))

/-- Some active, approved member's identity has no envelope at the generation: `uncoveredIdentitiesSQL` counts at
least one. -/
def Uncovered (k : KeyTables) (cid : ContainerId) (generation : Nat) : Prop :=
  ∃ d ∈ k.devices, d.identity = true ∧ d.revokedAt = none ∧ ApprovedIn k d.userId cid ∧ ActiveUser k d.userId ∧
    ¬∃ e ∈ k.keyEnvelopes, e.containerId = cid ∧ e.deviceId = d.id ∧ e.keyGeneration = generation

instance (k : KeyTables) (cid : ContainerId) (generation : Nat) : Decidable (Uncovered k cid generation) :=
  inferInstanceAs (Decidable (∃ d ∈ k.devices, d.identity = true ∧ d.revokedAt = none ∧ ApprovedIn k d.userId cid ∧
    ActiveUser k d.userId ∧
    ¬∃ e ∈ k.keyEnvelopes, e.containerId = cid ∧ e.deviceId = d.id ∧ e.keyGeneration = generation))

/-! ## The write gate -/

/-- `checkContainerKeyed`; `scheme` says that the request carries `X-Kynotes-Key-Scheme: shared-v2`. -/
def checkContainerKeyed (k : KeyTables) (cid : ContainerId) (userId : UserId) (scheme : Bool) : Except Err Nat := do
  let c ← fetch (liveContainer k cid) .notMember
  let _ ← fetch (liveMember k cid userId) .notMember
  require (scheme = true) .staleClient
  require (c.sharedGeneration ≠ 0) .keyRotationIncomplete
  pure c.keyGeneration

/-- `checkWriteGate`. -/
def checkWriteGate (k : KeyTables) (cid : ContainerId) (userId : UserId) (requested : Nat) (scheme : Bool) :
    Except Err Unit := do
  let generation ← checkContainerKeyed k cid userId scheme
  require (requested = generation) .keyRotationIncomplete
  require (OwnIdentityEnvelope k userId cid generation) .keyRotationIncomplete

/-- `checkUploader`. -/
def checkUploader (k : KeyTables) (cid : ContainerId) (userId : UserId) (scheme : Bool) : Except Err Unit := do
  let _ ← checkContainerKeyed k cid userId scheme
  let role ← fetch (liveRole k cid userId) .noRows
  require (canEdit role) .insufficientRole

/-! ## Envelopes and rotation -/

structure EnvelopeIn where
  deviceId : DeviceId
  keyGeneration : Nat
  alg : Alg
  /-- The decoded base64 text, `none` when it does not decode. -/
  envelope : Option Bytes
deriving DecidableEq

/-- `envelopeIn.bytes`. -/
def EnvelopeIn.bytes (v : EnvelopeIn) : Option Bytes :=
  v.envelope.filter fun env => v.alg ≠ .other ∧ 0 < env.length ∧ env.length ≤ 4096

/-- `insertEnvelopeTx`. -/
def insertEnvelopeTx (cid : ContainerId) (generation : Nat) (caller : UserId) (role : Role) (k : KeyTables)
    (v : EnvelopeIn) : Except Err KeyTables := do
  let env ← fetch v.bytes .envelopeInvalid
  require (v.keyGeneration = generation) .generationMoved
  let d ← fetch ((k.devices.get v.deviceId).filter fun d => d.revokedAt = none) .envelopeInvalid
  require (ApprovedIn k d.userId cid ∧ ActiveUser k d.userId) .envelopeInvalid
  require (d.userId = caller ∨ isSteward role) .insufficientRole
  -- the caller's own identity may be wrapped again, but a non-steward never writes its first envelope
  if d.userId = caller ∧ d.identity = true ∧ (k.keyEnvelopes.get (cid, v.deviceId, generation)).isSome then
    let t := k.keyEnvelopes.update (fun e => e.key = (cid, v.deviceId, generation)) fun e =>
      { e with alg := v.alg, envelope := env }
    pure { k with keyEnvelopes := t }
  else do
    require (d.userId = caller → d.identity = true → isSteward role) .insufficientRole
    let t ← fetch (k.keyEnvelopes.insert ⟨cid, v.deviceId, generation, v.alg, env⟩) .envelopeExists
    pure { k with keyEnvelopes := t }

/-- `putGenerationTx`: any generation from `shared_generation` to the current one that already holds an envelope. -/
def putGenerationTx (k : KeyTables) (cid : ContainerId) (current requested : Nat) : Except Err Nat := do
  let c ← fetch (k.containers.get cid) .noRows
  require (c.sharedGeneration ≠ 0) .keyRotationIncomplete
  require (c.sharedGeneration ≤ requested ∧ requested ≤ current) .generationMoved
  require (∃ e ∈ k.keyEnvelopes, e.containerId = cid ∧ e.keyGeneration = requested) .keyRotationIncomplete
  pure requested

/-- One envelope of `PUT /containers/{id}/envelopes`. -/
def putEnvelopeTx (cid : ContainerId) (current : Nat) (caller : UserId) (role : Role) (k : KeyTables)
    (v : EnvelopeIn) : Except Err KeyTables := do
  let target ← putGenerationTx k cid current v.keyGeneration
  insertEnvelopeTx cid target caller role k v

/-- `PUT /containers/{id}/envelopes`; `stepUp` is the verdict of `RecheckUserActionTx`. -/
def putEnvelopes (k : KeyTables) (caller : UserId) (stepUp : Bool) (cid : ContainerId) (vs : List EnvelopeIn) :
    Except Err KeyTables := do
  require (stepUp = true) .stepUpInvalid
  let (role, generation) ← memberTx k cid caller
  forEach (putEnvelopeTx cid generation caller role) k vs

/-- The container statement of a rotation: the next generation, which is also the first shared one if none was. -/
def mintGeneration (k : KeyTables) (cid : ContainerId) : KeyTables :=
  { k with containers := k.containers.update (fun c => c.id = cid) fun c =>
      { c with keyGeneration := c.keyGeneration + 1,
               sharedGeneration := if c.sharedGeneration = 0 then c.keyGeneration + 1 else c.sharedGeneration } }

/-- An envelope of a rotation must target the new generation. -/
def rotationEnvelopeTx (cid : ContainerId) (next : Nat) (caller : UserId) (role : Role) (k : KeyTables)
    (v : EnvelopeIn) : Except Err KeyTables :=
  match insertEnvelopeTx cid next caller role k v with
  | .error .generationMoved => .error .envelopeInvalid
  | r => r

/-- `POST /containers/{id}/key-rotations`. -/
def rotateKeys (k : KeyTables) (caller : UserId) (stepUp : Bool) (cid : ContainerId) (expected : Nat)
    (vs : List EnvelopeIn) : Except Err (KeyTables × Nat) := do
  require (1 ≤ expected ∧ vs ≠ [] ∧ (vs.map EnvelopeIn.deviceId).Nodup) .envelopeInvalid
  require (stepUp = true) .stepUpInvalid
  let (role, _) ← memberTx k cid caller
  require (isSteward role) .insufficientRole
  let c ← fetch ((k.containers.get cid).filter fun c => c.keyGeneration = expected) .generationMoved
  let next := c.keyGeneration + 1
  let k₁ ← forEach (rotationEnvelopeTx cid next caller role) (mintGeneration k cid) vs
  let left := k₁.invitationEnvelopes.delete fun e => e.containerId = cid ∧ e.keyGeneration < next
  let k₂ := { k₁ with invitationEnvelopes := left }
  require (¬Uncovered k₂ cid next ∧ OwnIdentityEnvelope k₂ caller cid next) .envelopeInvalid
  pure (k₂, next)

/-! ## Removal and key retirement -/

/-- `DELETE FROM invitations WHERE p`, with the cascade to their envelopes. -/
def deleteInvitations (k : KeyTables) (p : Invitation → Prop) [DecidablePred p] : KeyTables :=
  { k with
    invitations := k.invitations.delete p
    invitationEnvelopes := k.invitationEnvelopes.delete fun e => ∃ i ∈ k.invitations, i.id = e.invitationId ∧ p i }

/-- `DELETE FROM invitation_envelopes WHERE container_id IN s AND key_generation<(... c.key_generation ...)`. -/
def dropStaleInvitationEnvelopes (k : KeyTables) (s : ContainerId → Prop) [DecidablePred s] : KeyTables :=
  { k with
    invitationEnvelopes := k.invitationEnvelopes.delete fun e =>
      s e.containerId ∧ ∃ c ∈ k.containers, c.id = e.containerId ∧ e.keyGeneration < c.keyGeneration }

/-- The containers that a removal moves to the next generation: the one named and its live children. -/
def Retires (cid : ContainerId) (c : Container) : Prop := c.id = cid ∨ (c.teamId = some cid ∧ c.deletedAt = none)

instance (cid : ContainerId) : DecidablePred (Retires cid) := fun c =>
  inferInstanceAs (Decidable (c.id = cid ∨ (c.teamId = some cid ∧ c.deletedAt = none)))

/-- The statements of `removeMemberTx` after its check. -/
def revokeMember (k : KeyTables) (cid : ContainerId) (target : UserId) (now : Stamp) : KeyTables :=
  let revoked := k.memberships.update
    (fun m => (m.containerId = cid ∨ InScope k cid m.containerId) ∧ m.userId = target ∧ m.revokedAt = none)
    fun m => { m with revokedAt := some now }
  let k₁ := { k with
    memberships := revoked
    containers := k.containers.update (Retires cid) fun c => { c with keyGeneration := c.keyGeneration + 1 }
    keyEnvelopes := k.keyEnvelopes.delete fun e => InScope k cid e.containerId ∧ OwnsDevice k target e.deviceId }
  let k₂ := deleteInvitations k₁ fun i =>
    InScope k cid i.containerId ∧ (i.inviteeId = target ∨ i.inviterId = target) ∧ i.status = .pending
  let k₃ := dropStaleInvitationEnvelopes k₂ (InScope k cid)
  -- the team's notebooks that the removed member created are charged to the team's owner from now on
  { k₃ with containers := k₃.containers.update (fun c => c.teamId = some cid ∧ c.ownerUserId = target) fun c =>
      { c with ownerUserId := ((k.containers.get cid).map Container.ownerUserId).getD c.ownerUserId } }

/-- `removeMemberTx`: owners are never removed. -/
def removeMemberTx (k : KeyTables) (cid : ContainerId) (target : UserId) (now : Stamp) : Except Err KeyTables := do
  let m ← fetch (liveMember k cid target) .noRows
  require (m.role ≠ .owner) .noRows
  pure (revokeMember k cid target now)

/-- `DELETE /containers/{id}/members/{userID}` by a steward. -/
def removeMember (k : KeyTables) (caller : UserId) (cid : ContainerId) (target : UserId) (now : Stamp) :
    Except Err KeyTables := do
  require (target ≠ caller) .envelopeInvalid
  let role ← fetch (liveRole k cid caller) .insufficientRole
  require (isSteward role) .insufficientRole
  let m ← fetch (liveMember k cid target) .insufficientRole
  require (m.role ≠ .owner ∧ ¬(role = .admin ∧ m.role = .admin ∧ m.invitedBy ≠ some caller)) .insufficientRole
  removeMemberTx k cid target now

/-- The containers that `retireKeysTx` moves to the next generation. -/
def RetiredBy (k : KeyTables) (userId : UserId) (c : Container) : Prop :=
  0 < c.sharedGeneration ∧ c.deletedAt = none ∧ ApprovedIn k userId c.id

instance (k : KeyTables) (userId : UserId) : DecidablePred (RetiredBy k userId) := fun c =>
  inferInstanceAs (Decidable (0 < c.sharedGeneration ∧ c.deletedAt = none ∧ ApprovedIn k userId c.id))

/-- `retireKeysTx`. -/
def retireKeysTx (k : KeyTables) (userId : UserId) : KeyTables :=
  dropStaleInvitationEnvelopes
    { k with containers := k.containers.update (RetiredBy k userId) fun c =>
        { c with keyGeneration := c.keyGeneration + 1 } }
    (ApprovedIn k userId)

/-! ## Admission -/

/-- `admitMemberTx`. -/
def admitMemberTx (k : KeyTables) (cid : ContainerId) (userId : UserId) (role : Role) (invitedBy : Option UserId)
    (approved : Bool) : Except Err KeyTables := do
  require (¬∃ m ∈ k.memberships, m.userId = userId ∧ m.revokedAt = none ∧ InScope k cid m.containerId)
    .membershipExists
  let effective := if approved then role else .viewer
  let pending := if approved then none else some role
  let t := k.memberships.update (fun m => m.userId = userId ∧ InLiveScope k cid m.containerId) fun m =>
    { m with role := effective, revokedAt := none, invitedBy := invitedBy, approved := approved,
             pendingRole := pending }
  let scope := k.containers.rows.filter fun c => InLiveScope k cid c.id
  pure { k with memberships := t.insertAll (scope.map fun c =>
    ⟨c.id, userId, effective, none, invitedBy, approved, pending⟩) }

/-- `POST /containers/{id}/members/{userID}/approve`. -/
def approveMember (k : KeyTables) (caller : UserId) (cid : ContainerId) (target : UserId) : Except Err KeyTables := do
  let m ← fetch ((liveMember k cid caller).filter fun m => m.approved) .noRows
  let _ ← fetch ((liveContainer k cid).filter fun c => c.teamId = none) .noRows
  require (isSteward m.role) .insufficientRole
  require (∃ m ∈ k.memberships, m.userId = target ∧ m.revokedAt = none ∧ InLiveScope k cid m.containerId) .notMember
  let t := k.memberships.update
    (fun m => m.userId = target ∧ m.revokedAt = none ∧ InLiveScope k cid m.containerId)
    fun m => { m with role := if m.approved then m.role else m.pendingRole.getD m.role, pendingRole := none,
                      approved := true }
  pure { k with memberships := t }

structure InvitationEnvelopeIn where
  containerId : ContainerId
  envelope : EnvelopeIn

/-- `insertInvitationEnvelopeTx`. -/
def insertInvitationEnvelopeTx (invitation : InvitationId) (cid : ContainerId) (inviter invitee : UserId)
    (k : KeyTables) (v : InvitationEnvelopeIn) : Except Err KeyTables := do
  let env ← fetch v.envelope.bytes .envelopeInvalid
  let m ← fetch (liveMember k v.containerId inviter) .envelopeInvalid
  let c ← fetch ((liveContainer k v.containerId).filter fun c => c.id = cid ∨ c.teamId = some cid) .envelopeInvalid
  require (isSteward m.role) .insufficientRole
  require (c.sharedGeneration ≠ 0) .keyRotationIncomplete
  require (v.envelope.keyGeneration = c.keyGeneration) .generationMoved
  require (∃ d ∈ k.devices, d.id = v.envelope.deviceId ∧ d.userId = invitee ∧ d.identity = true ∧ d.revokedAt = none)
    .envelopeInvalid
  let t ← fetch (k.invitationEnvelopes.insert
    ⟨invitation, v.containerId, v.envelope.deviceId, v.envelope.keyGeneration, v.envelope.alg, env⟩) .envelopeInvalid
  pure { k with invitationEnvelopes := t }

/-- `POST /containers/{id}/invitations`; `stepUp` is needed only when envelopes come along. -/
def invite (k : KeyTables) (inviter : UserId) (stepUp : Bool) (invitation : InvitationId) (cid : ContainerId)
    (invitee : UserId) (role : Role) (token : Nat) (vs : List InvitationEnvelopeIn) (now : Time) :
    Except Err KeyTables := do
  require (role ≠ .owner) .envelopeInvalid
  let (r, _) ← memberTx k cid inviter
  require (isSteward r) .insufficientRole
  require (vs ≠ [] → stepUp = true) .stepUpInvalid
  let t ← fetch (k.invitations.insert ⟨invitation, cid, inviter, invitee, token, role, .pending, format (now + day)⟩)
    .internal
  forEach (insertInvitationEnvelopeTx invitation cid inviter invitee) { k with invitations := t } vs

/-- The rows `moveInvitationEnvelopesTx` selects. -/
def Installable (k : KeyTables) (invitation : InvitationId) (invitee : UserId) (e : InvitationEnvelope) : Prop :=
  e.invitationId = invitation ∧
  (∃ c ∈ k.containers, c.id = e.containerId ∧ c.keyGeneration = e.keyGeneration ∧ 0 < c.sharedGeneration ∧
    c.deletedAt = none) ∧
  ∃ d ∈ k.devices, d.id = e.deviceId ∧ d.userId = invitee ∧ d.identity = true ∧ d.revokedAt = none

instance (k : KeyTables) (invitation : InvitationId) (invitee : UserId) :
    DecidablePred (Installable k invitation invitee) := fun e =>
  inferInstanceAs (Decidable (e.invitationId = invitation ∧
    (∃ c ∈ k.containers, c.id = e.containerId ∧ c.keyGeneration = e.keyGeneration ∧ 0 < c.sharedGeneration ∧
      c.deletedAt = none) ∧
    ∃ d ∈ k.devices, d.id = e.deviceId ∧ d.userId = invitee ∧ d.identity = true ∧ d.revokedAt = none))

/-- `moveInvitationEnvelopesTx`. -/
def moveInvitationEnvelopesTx (k : KeyTables) (invitation : InvitationId) (invitee : UserId) : KeyTables :=
  let all := k.invitationEnvelopes.rows.filter fun e => Installable k invitation invitee e
  { k with
    keyEnvelopes := k.keyEnvelopes.insertAll (all.map fun e =>
      ⟨e.containerId, e.deviceId, e.keyGeneration, e.alg, e.envelope⟩)
    invitationEnvelopes := k.invitationEnvelopes.delete fun e => e.invitationId = invitation }

/-- `POST /invitations/{id}/accept`. -/
def accept (k : KeyTables) (userId : UserId) (invitation : InvitationId) (token : Nat) (now : Stamp) :
    Except Err KeyTables := do
  let i ← fetch ((k.invitations.get invitation).filter fun i =>
    i.token = token ∧ i.inviteeId = userId ∧ i.status = .pending ∧ now < i.expiresAt) .noRows
  let k₁ := { k with invitations := k.invitations.update (fun j => j.id = invitation) fun j =>
    { j with status := .accepted } }
  -- the inviter must still be a live steward of a live container
  let m ← fetch (liveMember k₁ i.containerId i.inviterId) .noRows
  require ((liveContainer k₁ i.containerId).isSome ∧ ActiveUser k₁ i.inviterId ∧ isSteward m.role) .noRows
  let k₂ ← admitMemberTx k₁ i.containerId userId i.role (some i.inviterId) true
  pure (moveInvitationEnvelopesTx k₂ invitation userId)

/-- `POST /admin/teams/{id}/members`: a member without approval, with no steward role. -/
def adminAddMember (k : KeyTables) (cid : ContainerId) (userId : UserId) (role : Role) : Except Err KeyTables := do
  require (role = .editor ∨ role = .commenter ∨ role = .viewer) .envelopeInvalid
  require ((∃ c ∈ k.containers, c.id = cid ∧ c.kind = .team ∧ c.deletedAt = none) ∧
    ∃ u ∈ k.users, u.id = userId ∧ u.status = .active ∧ u.accountKind = .user) .noRows
  admitMemberTx k cid userId role none false

end KyNotes
