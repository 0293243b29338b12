import KyNotes.Lib.Check
import KyNotes.Lib.ObjectStore
import KyNotes.Lib.Run
import KyNotes.Server.Schema

/-!
# The device-link relay

`link_routes.go`: a row holds a commitment, two one-time public keys and one sealed bundle. Every step is one transaction
that rechecks its caller; what a step may do is in the `WHERE` of its statement. The session that a step is called with is
the one that the middleware resolved when the request arrived: any session value, so that everything may have happened in
between.
-/

namespace KyNotes.Links

open Relational Check

abbrev SessionId := Nat
abbrev RequestId := Nat

/-! ## Rows -/

structure UserRow where
  id : UserId
  /-- `status='active'`. -/
  active : Bool
  authSecretHash : Bytes
  passwordAdminKnown : Bool
deriving DecidableEq

structure SessionRow where
  id : SessionId
  userId : UserId
  expiresAt : Stamp
  hardExpiresAt : Stamp
  revokedAt : Option Stamp
  stepUpAt : Option Stamp
deriving DecidableEq

structure LinkRow where
  id : RequestId
  userId : UserId
  newcomerSessionId : SessionId
  commitment : Bytes
  newcomerKey : Option Bytes
  approverSessionId : Option SessionId
  approverKey : Option Bytes
  bundle : Option Bytes
  createdAt : Stamp
  expiresAt : Stamp
deriving DecidableEq

/-- `auth.Session`, of one request. -/
structure Session where
  id : SessionId
  userId : UserId
  /-- `SSOIssuer != ""`. -/
  sso : Bool
  stepUpRaw : Option Stamp
  passwordHash : Bytes
deriving DecidableEq

inductive LinkState | pending | claimed | revealed | approved
deriving DecidableEq

/-- What `collect` answers. -/
structure Collected where
  state : LinkState
  expiresAt : Stamp
  approverKey : Option Bytes
  bundle : Option Bytes
deriving DecidableEq

/-- A `collect` that found a bundle, before its transaction. -/
structure Collecting where
  session : Session
  id : RequestId
  out : Collected
deriving DecidableEq

structure Relay where
  clock : Time
  /-- The next identifier that `ids.Mint` gives. -/
  nextId : Nat
  users : Table UserRow.id
  sessions : Table SessionRow.id
  /-- The user of each row of `user_identities`. -/
  identities : List UserId
  links : Table LinkRow.id
  collecting : List Collecting

def Relay.init : Relay := ⟨0, 0, Table.empty, Table.empty, [], Table.empty, []⟩

/-- `now.Format(time.RFC3339)`. -/
def Relay.now (r : Relay) : Stamp := format r.clock

/-! ## Rechecks -/

inductive LinkError
  | sessionInvalid
  | stepUpInvalid
  | passwordAdminKnown
  | gone
  | busy
  | internal
deriving DecidableEq

def StepUpWindow : Time := 600 * second

/-- `liveSessionTx`: the step-up and the password hash. -/
def liveSessionTx (r : Relay) (s : Session) : Except LinkError (Option Stamp × Bytes) := do
  let row ← fetch (r.sessions.get s.id) .sessionInvalid
  let user ← fetch (r.users.get row.userId) .sessionInvalid
  require (row.userId = s.userId ∧ row.revokedAt = none ∧ user.active) .sessionInvalid
  require (r.clock ≤ parseTime row.expiresAt ∧ r.clock ≤ parseTime row.hardExpiresAt) .sessionInvalid
  pure (row.stepUpAt, user.authSecretHash)

def sessionLive (r : Relay) (s : Session) : Except LinkError Unit := do
  let _ ← liveSessionTx r s

def requireOwnPassword (r : Relay) (s : Session) : Except LinkError Unit := do
  let user ← fetch (r.users.get s.userId) .internal
  require (user.passwordAdminKnown = false) .passwordAdminKnown

def partyLive (r : Relay) (s : Session) : Except LinkError Unit := do
  sessionLive r s
  if s.sso then pure () else requireOwnPassword r s

def recheckUserStepUpTx (r : Relay) (s : Session) : Except LinkError Unit := do
  let (stepUp, passwordHash) ← liveSessionTx r s
  require (s.passwordHash ≠ [] ∧ passwordHash = s.passwordHash ∧ stepUp = s.stepUpRaw ∧
    ∃ at' ∈ s.stepUpRaw, r.clock - parseTime at' ≤ StepUpWindow) .stepUpInvalid
  requireOwnPassword r s

def recheckUserActionTx (r : Relay) (s : Session) : Except LinkError Unit :=
  if s.sso then sessionLive r s else recheckUserStepUpTx r s

/-! ## Steps -/

def linkTTL : Time := 600 * second
def linkMaxPending : Nat := 3
def linkBundleBytes : Nat := 81
def linkCommitLabel : Bytes := "kynotes/link-commit/v1".toUTF8.toList

/-- Of `liveNewcomer` and `liveApprover`. -/
def Relay.Alive (r : Relay) (x : SessionRow) : Prop :=
  x.revokedAt = none ∧ r.now < x.expiresAt ∧ r.now < x.hardExpiresAt

instance (r : Relay) (x : SessionRow) : Decidable (r.Alive x) := inferInstanceAs (Decidable (_ ∧ _))

def Relay.LiveNewcomer (r : Relay) (l : LinkRow) : Prop := ∃ x ∈ r.sessions, l.newcomerSessionId = x.id ∧ r.Alive x

def Relay.LiveApprover (r : Relay) (l : LinkRow) : Prop := ∃ x ∈ r.sessions, l.approverSessionId = some x.id ∧ r.Alive x

instance (r : Relay) (l : LinkRow) : Decidable (r.LiveNewcomer l) := inferInstanceAs (Decidable (∃ x ∈ r.sessions, _))

instance (r : Relay) (l : LinkRow) : Decidable (r.LiveApprover l) := inferInstanceAs (Decidable (∃ x ∈ r.sessions, _))

def createTx (r : Relay) (s : Session) (commitment : Bytes) : Except LinkError (Table LinkRow.id) := do
  partyLive r s
  require (s.userId ∈ r.identities) .gone
  let links := r.links.delete fun l => l.newcomerSessionId = s.id
  require (links.count (fun l => l.userId = s.userId ∧ r.now < l.expiresAt) < linkMaxPending) .busy
  fetch (links.insert ⟨r.nextId, s.userId, s.id, commitment, none, none, none, none, r.now, format (r.clock + linkTTL)⟩)
    .internal

/-- The `WHERE` of `claim`. -/
def Relay.Claimable (r : Relay) (s : Session) (id : RequestId) (l : LinkRow) : Prop :=
  l.id = id ∧ l.userId = s.userId ∧ r.now < l.expiresAt ∧ l.newcomerSessionId ≠ s.id ∧ l.approverSessionId = none ∧
    r.LiveNewcomer l

instance (r : Relay) (s : Session) (id : RequestId) : DecidablePred (r.Claimable s id) :=
  fun _ => inferInstanceAs (Decidable (_ ∧ _))

def claimTx (r : Relay) (s : Session) (id : RequestId) (approverKey : Bytes) : Except LinkError (Table LinkRow.id) := do
  partyLive r s
  require (∃ l ∈ r.links, r.Claimable s id l) .gone
  pure (r.links.update (r.Claimable s id) fun l => { l with approverSessionId := some s.id, approverKey := some approverKey })

/-- The `WHERE` of `reveal`. -/
def Relay.Revealable (r : Relay) (s : Session) (id : RequestId) (l : LinkRow) : Prop :=
  l.id = id ∧ l.userId = s.userId ∧ l.newcomerSessionId = s.id ∧ r.now < l.expiresAt ∧ l.approverKey ≠ none ∧
    l.newcomerKey = none ∧ r.LiveApprover l

instance (r : Relay) (s : Session) (id : RequestId) : DecidablePred (r.Revealable s id) :=
  fun _ => inferInstanceAs (Decidable (_ ∧ _))

variable (sha256 : Bytes → Bytes)

/-- The rows after it, and whether the key was the committed one. -/
def revealTx (r : Relay) (s : Session) (id : RequestId) (newcomerKey : Bytes) :
    Except LinkError (Table LinkRow.id × Bool) := do
  partyLive r s
  let l ← fetch ((r.links.get id).filter fun l => r.Revealable s id l) .gone
  if sha256 (linkCommitLabel ++ newcomerKey) ≠ l.commitment then pure (r.links.delete fun l => l.id = id, false)
  else do
    require (∃ l ∈ r.links, l.id = id ∧ l.newcomerKey = none) .gone
    pure (r.links.update (fun l => l.id = id ∧ l.newcomerKey = none) fun l => { l with newcomerKey := some newcomerKey }, true)

def cancelTx (r : Relay) (s : Session) (id : RequestId) : Except LinkError (Table LinkRow.id) := do
  sessionLive r s
  require (∃ l ∈ r.links, l.id = id ∧ l.userId = s.userId) .gone
  pure (r.links.delete fun l => l.id = id ∧ l.userId = s.userId)

/-- The `WHERE` of `approve`. -/
def Relay.Approvable (r : Relay) (s : Session) (id : RequestId) (l : LinkRow) : Prop :=
  l.id = id ∧ l.userId = s.userId ∧ l.approverSessionId = some s.id ∧ r.now < l.expiresAt ∧ l.newcomerKey ≠ none ∧
    l.bundle = none ∧ r.LiveNewcomer l

instance (r : Relay) (s : Session) (id : RequestId) : DecidablePred (r.Approvable s id) :=
  fun _ => inferInstanceAs (Decidable (_ ∧ _))

def approveTx (r : Relay) (s : Session) (id : RequestId) (bundle : Bytes) : Except LinkError (Table LinkRow.id) := do
  recheckUserActionTx r s
  require (∃ l ∈ r.links, r.Approvable s id l) .gone
  pure (r.links.update (r.Approvable s id) fun l => { l with bundle := some bundle })

/-- The `WHERE` of `collect`. -/
def Relay.Collectable (r : Relay) (s : Session) (id : RequestId) (l : LinkRow) : Prop :=
  l.id = id ∧ l.userId = s.userId ∧ l.newcomerSessionId = s.id ∧ r.now < l.expiresAt

instance (r : Relay) (s : Session) (id : RequestId) : DecidablePred (r.Collectable s id) :=
  fun _ => inferInstanceAs (Decidable (_ ∧ _))

/-- The plain read of `collect`, and whether a bundle is ready. -/
def readCollect (r : Relay) (s : Session) (id : RequestId) : Except LinkError (Collected × Bool) := do
  let l ← fetch ((r.links.get id).filter fun l => r.Collectable s id l) .gone
  let user ← fetch (r.users.get l.userId) .gone
  require (user.passwordAdminKnown = false ∨ s.sso = true) .passwordAdminKnown
  let state := if l.newcomerKey ≠ none then .revealed else if l.approverKey ≠ none then .claimed else .pending
  pure (⟨state, l.expiresAt, l.approverKey, none⟩, l.bundle ≠ none)

/-- The transaction of `collect`: the rows after it, and the bundle. -/
def collectTx (r : Relay) (s : Session) (id : RequestId) : Except LinkError (Table LinkRow.id × Bytes) := do
  partyLive r s
  let l ← fetch ((r.links.get id).filter fun l => r.Collectable s id l) .gone
  let bundle ← fetch l.bundle .gone
  pure (r.links.delete fun l => r.Collectable s id l ∧ l.bundle ≠ none, bundle)

/-! ## The relay over time -/

inductive LinkEvent | request | claim | reveal | refuse | approve | cancel | collect
deriving DecidableEq

/-- A committed step: its audit event, the session it was for, and the bundle that it hands out. -/
structure Done where
  event : LinkEvent
  session : SessionId
  id : RequestId
  bundle : Option Bytes
deriving DecidableEq

inductive Reply
  | created (id : RequestId) (expiresAt : Stamp)
  | noContent
  | collected (out : Collected)
  | invalidRequest
  /-- The key does not match this request. -/
  | mismatch
  | refused (e : LinkError)
  /-- No answer yet, or none at all. -/
  | silent
deriving DecidableEq

/-- The requests, and what the rest of the server does to the rows that the relay reads. -/
inductive RelayOp
  | create (s : Session) (commitment : Bytes)
  | claim (s : Session) (id : RequestId) (approverKey : Bytes)
  | reveal (s : Session) (id : RequestId) (newcomerKey : Bytes)
  | approve (s : Session) (id : RequestId) (bundle : Bytes)
  | cancel (s : Session) (id : RequestId)
  | collect (s : Session) (id : RequestId)
  /-- The transaction of the `n`-th collect in flight. -/
  | deliver (n : Nat)
  | signIn (userId : UserId) (expiresAt hardExpiresAt : Stamp)
  | slide (id : SessionId) (expiresAt : Stamp)
  | revoke (id : SessionId)
  | stepUp (id : SessionId) (stepUpAt : Option Stamp)
  /-- An account is made or changed: its status, its password, who knows it. -/
  | setUser (user : UserRow)
  | setIdentities (identities : List UserId)
  /-- `DELETE FROM link_requests WHERE user_id=?` of an identity reset and of a password reset. -/
  | clear (userId : UserId)
  /-- The collection of sessions, with `ON DELETE CASCADE`. -/
  | collectSessions
  /-- The collection of expired requests. -/
  | collectLinks
  | tick (d : Time)

/-- One relay step: its rows and its audit event, or its refusal. -/
def Relay.commit (r : Relay) (event : LinkEvent) (session : SessionId) (id : RequestId) (reply : Reply) :
    Except LinkError (Table LinkRow.id) → Relay × Reply × List Done
  | .ok links => ({ r with links }, reply, [⟨event, session, id, none⟩])
  | .error e => (r, .refused e, [])

/-- The sessions that the collection deletes. -/
def Relay.Stale (r : Relay) (x : SessionRow) : Prop :=
  (∃ at' ∈ x.revokedAt, at' < format (r.clock - day)) ∨ x.hardExpiresAt < r.now

instance (r : Relay) (x : SessionRow) : Decidable (r.Stale x) := inferInstanceAs (Decidable (_ ∨ _))

/-- The row refers to a deleted session. -/
def Orphan (sessions : Table SessionRow.id) (l : LinkRow) : Prop :=
  sessions.get l.newcomerSessionId = none ∨ ∃ a ∈ l.approverSessionId, sessions.get a = none

instance (sessions : Table SessionRow.id) (l : LinkRow) : Decidable (Orphan sessions l) :=
  inferInstanceAs (Decidable (_ ∨ _))

def Relay.serve (r : Relay) : RelayOp → Relay × Reply × List Done
  | .create s commitment =>
    if commitment.length ≠ 32 then (r, .invalidRequest, [])
    else
      let expiresAt := format (r.clock + linkTTL)
      let (r', out) := r.commit .request s.id r.nextId (.created r.nextId expiresAt) (createTx r s commitment)
      ({ r' with nextId := r.nextId + 1 }, out)
  | .claim s id approverKey =>
    if approverKey.length ≠ 32 then (r, .invalidRequest, [])
    else r.commit .claim s.id id .noContent (claimTx r s id approverKey)
  | .reveal s id newcomerKey =>
    if newcomerKey.length ≠ 32 then (r, .invalidRequest, [])
    else
      match revealTx sha256 r s id newcomerKey with
      | .error e => (r, .refused e, [])
      | .ok (links, true) => ({ r with links }, .noContent, [⟨.reveal, s.id, id, none⟩])
      | .ok (links, false) => ({ r with links }, .mismatch, [⟨.refuse, s.id, id, none⟩])
  | .approve s id bundle =>
    if bundle.length ≠ linkBundleBytes then (r, .invalidRequest, [])
    else r.commit .approve s.id id .noContent (approveTx r s id bundle)
  | .cancel s id => r.commit .cancel s.id id .noContent (cancelTx r s id)
  | .collect s id =>
    match readCollect r s id with
    | .error e => (r, .refused e, [])
    | .ok (out, false) => (r, .collected out, [])
    | .ok (out, true) => ({ r with collecting := r.collecting ++ [⟨s, id, out⟩] }, .silent, [])
  | .deliver n =>
    match r.collecting[n]? with
    | none => (r, .silent, [])
    | some ⟨s, id, out⟩ =>
      let r := { r with collecting := r.collecting.eraseIdx n }
      match collectTx r s id with
      | .error e => (r, .refused e, [])
      | .ok (links, bundle) =>
        ({ r with links }, .collected { out with state := .approved, bundle := some bundle },
          [⟨.collect, s.id, id, some bundle⟩])
  | .signIn userId expiresAt hardExpiresAt =>
    let sessions := if (r.users.get userId).any UserRow.active then
      r.sessions.insertOrIgnore ⟨r.nextId, userId, expiresAt, hardExpiresAt, none, none⟩ else r.sessions
    ({ r with sessions, nextId := r.nextId + 1 }, .silent, [])
  | .slide id expiresAt => ({ r with sessions := r.sessions.update (fun x => x.id = id) fun x => { x with expiresAt } }, .silent, [])
  | .revoke id =>
    ({ r with sessions := r.sessions.update (fun x => x.id = id) fun x => { x with revokedAt := some r.now } }, .silent, [])
  | .stepUp id stepUpAt =>
    ({ r with sessions := r.sessions.update (fun x => x.id = id) fun x => { x with stepUpAt } }, .silent, [])
  | .setUser user => ({ r with users := r.users.put user }, .silent, [])
  | .setIdentities identities => ({ r with identities }, .silent, [])
  | .clear userId => ({ r with links := r.links.delete fun l => l.userId = userId }, .silent, [])
  | .collectSessions =>
    let sessions := r.sessions.delete r.Stale
    ({ r with sessions, links := r.links.delete (Orphan sessions) }, .silent, [])
  | .collectLinks => ({ r with links := r.links.delete fun l => l.expiresAt ≤ r.now }, .silent, [])
  | .tick d => ({ r with clock := r.clock + d }, .silent, [])

def Relay.next (r : Relay) (op : RelayOp) : Relay := (r.serve sha256 op).1

/-- What the step commits. -/
def Relay.done (r : Relay) (op : RelayOp) : List Done := (r.serve sha256 op).2.2

def Relay.reply (r : Relay) (op : RelayOp) : Reply := (r.serve sha256 op).2.1

end KyNotes.Links
