import KyNotes.Server.Accounts

/-!
# Containers (`container_routes.go`, `admin_routes.go`)

Creation of a notebook, a team or a team's notebook, rename, deletion with everything it holds, and page creation.
`bumpSeq` is the statement `UPDATE containers SET change_seq=change_seq+1 ... RETURNING change_seq`.
-/

namespace KyNotes

open Relational Check

/-- A container as `POST /containers` inserts it: without a key and without a name. -/
def newContainer (id : ContainerId) (kind : Kind) (owner : UserId) (teamId : Option ContainerId) : Container :=
  ⟨id, kind, owner, teamId, 1, 0, 0, none⟩

/-- A container with its owner's membership. -/
def createRoot (k : KeyTables) (id : ContainerId) (kind : Kind) (owner : UserId) : Except Err KeyTables := do
  let _ ← fetch (k.users.get owner) .internal
  let t ← fetch (k.containers.insert (newContainer id kind owner none)) .internal
  let m ← fetch (k.memberships.insert ⟨id, owner, .owner, none, none, true, none⟩) .internal
  pure { k with containers := t, memberships := m }

/-- A team's notebook: its members are the team's live members, each as the team has it. -/
def createChild (k : KeyTables) (id : ContainerId) (kind : Kind) (userId : UserId) (team : ContainerId) :
    Except Err KeyTables := do
  let c ← fetch (liveContainer k team) .insufficientRole
  require (c.kind = .team ∧ kind ≠ .team) .insufficientRole
  let (role, _) ← memberTx k team userId
  require (isSteward role) .insufficientRole
  let _ ← fetch (k.users.get userId) .internal
  let t ← fetch (k.containers.insert (newContainer id kind userId (some team))) .internal
  let copies := (k.memberships.rows.filter fun m => m.containerId = team ∧ m.revokedAt = none).map fun m =>
    { m with containerId := id }
  pure { k with containers := t, memberships := k.memberships.insertAll copies }

/-- `POST /containers`. -/
def createContainer (k : KeyTables) (id : ContainerId) (kind : Kind) (userId : UserId) (team : Option ContainerId) :
    Except Err KeyTables :=
  match team with
  | none => createRoot k id kind userId
  | some t => createChild k id kind userId t

/-- `POST /admin/teams`. -/
def adminCreateTeam (k : KeyTables) (id : ContainerId) (owner : UserId) : Except Err KeyTables := do
  require (∃ u ∈ k.users, u.id = owner ∧ u.status = .active ∧ u.accountKind = .user) .noRows
  createRoot k id .team owner

/-- `PATCH /containers/{id}`: a name is sealed with the current generation, over the name the client saw. -/
def renameContainer (k : KeyTables) (userId : UserId) (cid : ContainerId) (scheme : Bool) (generation : Option Nat)
    (baseVersion : Nat) : Except Err KeyTables := do
  let m ← fetch (liveMember k cid userId) .noRows
  let c ← fetch (liveContainer k cid) .noRows
  require (canEdit m.role) .insufficientRole
  require (scheme = true) .staleClient
  require (c.sharedGeneration ≠ 0 ∧ generation = some c.keyGeneration) .keyRotationIncomplete
  require (c.metaVersion = baseVersion) .versionConflict
  let t := k.containers.update (fun c => c.id = cid) fun c => { c with metaVersion := c.metaVersion + 1 }
  pure { k with containers := t }

/-! ## The change sequence -/

/-- `UPDATE containers SET change_seq=change_seq+1 WHERE id IN s`. -/
def bumpSeqs (p : PageTables) (s : ContainerId → Prop) [DecidablePred s] : PageTables :=
  { p with changeSeq := fun c => if s c then p.changeSeq c + 1 else p.changeSeq c }

/-- The statement for one container; the new value is `(bumpSeq p cid).changeSeq cid`. -/
def bumpSeq (p : PageTables) (cid : ContainerId) : PageTables := bumpSeqs p (fun c => c = cid)

/-! ## Deletion -/

/-- `blank`: this user created it, still stewards it, and it was never keyed or named and holds nothing. -/
def Blank (db : DB) (c : Container) (m : Membership) : Prop :=
  c.ownerUserId = m.userId ∧ isSteward m.role ∧ c.sharedGeneration = 0 ∧ c.metaVersion = 0 ∧
  (¬∃ o ∈ db.pages.objects, o.containerId = c.id) ∧ (¬∃ x ∈ db.pages.comments, x.containerId = c.id) ∧
  (¬∃ a ∈ db.pages.attachments, a.containerId = c.id) ∧ (¬∃ s ∈ db.uploadSessions, s.containerId = c.id) ∧
  (¬∃ e ∈ db.keys.keyEnvelopes, e.containerId = c.id) ∧ (¬∃ i ∈ db.keys.invitations, i.containerId = c.id) ∧
  (¬∃ t ∈ db.keys.containers, t.teamId = some c.id ∧ t.deletedAt = none) ∧
  (c.kind ≠ .team ∨ ¬∃ o ∈ db.keys.memberships, o.containerId = c.id ∧ o.userId ≠ m.userId ∧ o.revokedAt = none)

instance (db : DB) (c : Container) (m : Membership) : Decidable (Blank db c m) := by
  unfold Blank; infer_instance

/-- The key tables' part: the notebook and its live children are deleted. -/
def tombstoneContainers (k : KeyTables) (cid : ContainerId) (now : Stamp) : KeyTables :=
  { k with
    containers := k.containers.update (fun c => c.deletedAt = none ∧ (c.id = cid ∨ c.teamId = some cid)) fun c =>
      { c with deletedAt := some now } }

/-- The page tables' part: pages and attachments tombstoned, what they hold dropped. Neither statement stamps a new
`change_seq` on a row. -/
def clearPages (p : PageTables) (k : KeyTables) (cid : ContainerId) (now : Stamp) : PageTables :=
  let inScope := InScope k cid
  let ofScope := fun oid => ∃ o ∈ p.objects, o.id = oid ∧ inScope o.containerId
  { p with
    objectVersions := p.objectVersions.delete fun v => ofScope v.objectId
    attachmentRefs := p.attachmentRefs.delete fun r => ofScope r.objectId
    conflicts := p.conflicts.delete fun c => inScope c.containerId
    comments := p.comments.delete fun c => inScope c.containerId
    objects := p.objects.update (fun o => o.deletedAt = none ∧ inScope o.containerId) fun o =>
      { o with deletedAt := some now }
    attachments := p.attachments.update (fun a => a.deletedAt = none ∧ inScope a.containerId) fun a =>
      { a with deletedAt := some now } }

/-- `DELETE /containers/{id}`; `recent` says that the session is younger than five minutes. -/
def deleteContainer (db : DB) (userId : UserId) (cid : ContainerId) (recent : Bool) (now : Stamp) :
    Except Err DB := do
  let m ← fetch (liveMember db.keys cid userId) .noRows
  let c ← fetch (liveContainer db.keys cid) .noRows
  require (Blank db c m ∨ m.role = .owner) .insufficientRole
  require (Blank db c m ∨ recent = true) .deleteReauth
  let inScope := InScope db.keys cid
  let failed := db.uploadSessions.update (fun s => s.status = .pending ∧ inScope s.containerId) fun s =>
    { s with status := .failed, updatedAt := now }
  pure { db with
    keys := tombstoneContainers db.keys cid now
    pages := bumpSeqs (clearPages db.pages db.keys cid now) (InLiveScope db.keys cid)
    uploadSessions := failed }

/-! ## Pages -/

/-- `POST /containers/{id}/objects`. -/
def createObject (k : KeyTables) (p : PageTables) (userId : UserId) (cid : ContainerId) (id : ObjectId) :
    Except Err PageTables := do
  let (role, _) ← memberTx k cid userId
  require (canEdit role) .insufficientRole
  let p₁ := bumpSeq p cid
  let t ← fetch (p.objects.insert ⟨id, cid, 0, p₁.changeSeq cid, [], none⟩) .internal
  pure { p₁ with objects := t }

end KyNotes
