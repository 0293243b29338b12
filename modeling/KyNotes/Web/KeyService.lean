import KyNotes.Lib.Program
import KyNotes.Web.Vault

/-!
# The key service

`keyService.ts`: one pass over the keys of a container (`syncContainerKeys`), and the invitation that carries a key
(`inviteWithKeys`). Both are programs that ask the server, the vault, the user and the random generator; between two
questions anything may happen elsewhere, another tab's pass included.
-/

namespace KyNotes.Web

open Relational Interaction

structure InvitationEnvelope extends Envelope where
  containerId : JsString
deriving DecidableEq

/-- Why a call or a pass throws. -/
inductive Failure
  /-- The server's code `already_exists`. -/
  | alreadyExists
  /-- The server's code `invalid_request`. -/
  | invalidRequest
  | other
  /-- The confirmations went on for more rounds than are followed. -/
  | spent
deriving DecidableEq

/-- `KeyAPI`, `PinStore`, the callbacks, and randomness. -/
inductive Call
  | container (containerID : JsString)
  | envelopes (containerID : JsString)
  | members (containerID : JsString)
  | userIdentity (userID : JsString)
  | stepUp
  | putEnvelopes (containerID : JsString) (envelopes : List Envelope)
  | rotate (containerID : JsString) (expectedGeneration : Num) (envelopes : List Envelope)
  | invite (containerID inviteeID : JsString) (role : Role) (envelopes : List InvitationEnvelope)
  | loadPins
  | addFresh (pins : Pins)
  | confirm (confirmation : PinConfirmation) (expected : JsString)
  | loadKeyState (containerID : JsString)
  | saveKeyState (containerID : JsString) (state : KeyState)
  | confirmChanged (changes : List PinChange)
  | onFloor (containerID : JsString) (floor : KeyFloor)
  | random (size : Nat)
deriving DecidableEq

@[reducible] def Call.Value : Call → Type
  | .container _ => KeyedContainer
  | .envelopes _ => List Envelope
  | .members _ => List Member
  | .userIdentity _ => Option PublicIdentity
  | .rotate _ _ _ => Num
  | .loadPins => Pins
  | .addFresh _ => PinsStored
  | .loadKeyState _ => KeyState
  | .confirm _ _ | .saveKeyState _ _ | .confirmChanged _ => Bool
  | .random size => { bytes : Bytes // bytes.length = size }
  | .stepUp | .putEnvelopes _ _ | .invite _ _ _ _ | .onFloor _ _ => Unit

/-- `latest.saved`: the key memory of the newest keyring that the pass opened. -/
structure Saved where
  containerID : JsString
  known : KeyState

abbrev Service := Action (Option Saved) Failure Call Call.Value

open Action

def ask (c : Call) : Service c.Value := call c

/-- Some part of the code throws. -/
def orThrow {α : Type} : Option α → Service α
  | none => fail .other
  | some a => pure a

structure Caller where
  userId : JsString
  identity : Option HeldIdentity
  canWrap : Bool
  recoverable : Bool

def Caller.me (caller : Caller) : Option Me := caller.identity.map fun identity => ⟨identity, caller.userId⟩

/-- The caller's own identity, as the members' list shows it. -/
def Caller.own (caller : Caller) : Option PublicIdentity :=
  caller.identity.map fun identity => ⟨identity.deviceId, base64 identity.publicKey⟩

inductive KeyPlan
  | sweep (plan : SweepPlan)
  /-- The members, which it names. -/
  | untrusted (members : List MemberKey)
  | pinsUnsaved
  | rollback

/-- `Pass`. -/
structure Pass where
  container : KeyedContainer
  ring : Keyring
  minted : Bool
  known : KeyState
  plan : KeyPlan
  fresh : List MemberKey
  changed : List PinChange
  conflicts : List Num
  members : List MemberKey
  envelopes : List Envelope
  deferred : Bool

structure KeySync extends Pass where
  keyStateSaved : Bool

/-- How a pass ends: with a result, or with the first-contact pins stored by an attempt that lost a race. -/
inductive Outcome
  | done (pass : Pass)
  | retry (carried : List MemberKey)

/-- `uniqueBy`. -/
def uniqueBy {α κ : Type} [DecidableEq κ] (items : List α) (id : α → κ) : List α :=
  items.foldl (fun kept item => if kept.any fun other => id other = id item then kept else kept ++ [item]) []

/-- What a pass has read before it opens the keyring. -/
structure Reading where
  caller : Caller
  held : Keyring
  container : KeyedContainer
  /-- The key memory with the raised floor. -/
  known : KeyState
  envelopes : List Envelope
  members : List MemberKey

variable (S : Suite)

/-- `open`. -/
def Reading.opened (r : Reading) (pins : Pins) (rows : List Envelope) (ring : Keyring) : OpenedKeyring :=
  openKeyring S ⟨r.container.id, rows, r.caller.me, r.members, pins, r.known, ring⟩

/-- `plan`, with whether the work is deferred. -/
def Reading.plan (r : Reading) (opened : OpenedKeyring) (rows : List Envelope) : SweepPlan × Bool :=
  if r.caller.identity.isNone then (.idle, false)
  else
    let next := planSweep r.container r.caller.userId r.members rows opened.ring r.caller.recoverable
    let work : SweepPlan :=
      match next with
      | .wrap grants =>
        let grants := grants.filter fun grant => grant.generation ∉ opened.conflicts
        if grants = [] then .idle else .wrap grants
      | next => next
    match work with
    | .idle => (.idle, false)
    | .unrecoverable => (.unrecoverable, false)
    | .mint recipients => if r.caller.canWrap then (.mint recipients, false) else (.idle, true)
    | .wrap grants => if r.caller.canWrap then (.wrap grants, false) else (.idle, true)

/-- `targets`. -/
def Reading.targets (r : Reading) (sweep : SweepPlan) : List MemberKey :=
  (match sweep with
    | .mint recipients => recipients
    | .wrap grants => grants.map Grant.member
    | .idle | .unrecoverable => []).filter fun member => member.userId ≠ r.caller.userId

/-- `pinFailure`: a conflict means that another pass pinned a different key first. -/
def Reading.pinFailure (r : Reading) : PinsStored → Option KeyPlan
  | .ok => none
  | .refused conflicts =>
    if conflicts = [] then some .pinsUnsaved
    else some (.untrusted (r.members.filter fun member => member.userId ∈ conflicts))

/-- `trusted`: the keys of the opened keyring may be used and its memory saved. -/
def Reading.trusted (r : Reading) (opened : OpenedKeyring) : Service OpenedKeyring := do
  modify fun _ => some ⟨r.container.id, raiseFloor opened.known r.container⟩
  pure opened

/-- `persistedOnly`: re-opens against the pins that are stored; when a first contact is still needed, adopts nothing new. -/
def Reading.persistedOnly (r : Reading) : Service OpenedKeyring := do
  let stored ← ask .loadPins
  let again := r.opened S stored r.envelopes r.held
  if again.fresh = [] then r.trusted again
  else do
    modify fun _ => some ⟨r.container.id, r.known⟩
    pure { r.opened S stored [] r.held with known := r.known }

/-! ## Reading -/

/-- The caller's own identity is never asked of the server. -/
def identityOf (caller : Caller) (member : Member) : Service (Option PublicIdentity) :=
  match caller.own with
  | none => ask (.userIdentity member.userId)
  | some own => if member.userId = caller.userId then pure (some own) else ask (.userIdentity member.userId)

def identities (caller : Caller) : List Member → Service (List MemberKey)
  | [] => pure []
  | member :: rest => do
    let identity ← identityOf caller member
    let rest ← identities caller rest
    pure (⟨member, identity⟩ :: rest)

/-- The raised floor is stored before any use; a failure is ignored. -/
def persistFloor (containerID : JsString) (prior known : KeyState) : Service Unit :=
  if known.toKeyFloor = prior.toKeyFloor then pure ()
  else do
    let _ ← attempt (ask (.saveKeyState containerID known))
    pure ()

/-- The start of a pass, with whether the server reports less than this device has seen. -/
def reading (containerID : JsString) (caller : Caller) (held : Keyring) : Service (Reading × Bool) := do
  let container ← ask (.container containerID)
  let prior ← ask (.loadKeyState container.id)
  let known := raiseFloor prior container
  ask (.onFloor container.id known.toKeyFloor)
  persistFloor container.id prior known
  let envelopes ← ask (.envelopes container.id)
  let listed ← ask (.members container.id)
  let members ← identities caller listed
  pure (⟨caller, held, container, known, envelopes, members⟩, (guardContainer container prior.toKeyFloor).2)

/-! ## Confirmations -/

/-- Where a pass stands before it shares anything. -/
structure Progress where
  pins : Pins
  opened : OpenedKeyring
  sweep : SweepPlan
  deferred : Bool
  changed : List PinChange

/-- Pins what the user confirmed; nothing when a pin cannot be kept. -/
def confirmPins : List PinChange → Pins → Service (Option Pins)
  | [], pins => pure (some pins)
  | change :: rest, pins => do
    let confirmation ← orThrow (confirmFingerprintChange pins change.member)
    let kept : Bool ← ask (.confirm confirmation change.pinned)
    if kept then confirmPins rest confirmation.pins else pure none

/-- The members whose key is not the pinned one. -/
def Reading.pending (r : Reading) (p : Progress) : List PinChange :=
  uniqueBy (p.opened.changed ++ (comparePins p.pins (r.targets p.sweep)).changed) fun change => change.member.userId

/-- Re-opens the keyring with other pins, and plans again. -/
def Reading.reopened (r : Reading) (pins : Pins) (changed : List PinChange) : Progress :=
  let opened := r.opened S pins r.envelopes r.held
  let (sweep, deferred) := r.plan opened r.envelopes
  ⟨pins, opened, sweep, deferred, changed⟩

/-- The loop of confirmations, for so many rounds; a plan when the pass must stop. -/
def Reading.confirmed (r : Reading) : Nat → Progress → Service (Progress × Option KeyPlan)
  | 0, _ => fail .spent
  | rounds + 1, p =>
    let pending := r.pending p
    if pending = [] then pure (p, none)
    else do
      let changed := p.changed ++ pending
      let trusts : Bool ← ask (.confirmChanged pending)
      if trusts then do
        match ← confirmPins pending p.pins with
        | none => pure ({ p with changed }, some .pinsUnsaved)
        | some pins => r.confirmed rounds (r.reopened S pins changed)
      else pure ({ p with changed }, some (.untrusted (pending.map PinChange.member)))

/-! ## Sharing -/

/-- `result`. -/
def Reading.result (r : Reading) (carried : List MemberKey) (p : Progress) (seen : List Envelope) (ring : Keyring)
    (plan : KeyPlan) (minted : Bool) (fresh : List MemberKey) (last : OpenedKeyring) : Pass where
  container := r.container
  ring := ring
  minted := minted
  known := raiseFloor last.known r.container
  plan := plan
  fresh := uniqueBy (carried ++ fresh) fun member => member.userId
  changed := p.changed
  conflicts := last.conflicts
  members := r.members
  envelopes := seen
  deferred := p.deferred

/-- `stopped`: only what the stored pins vouch for. -/
def Reading.stopped (r : Reading) (carried : List MemberKey) (p : Progress) (plan : KeyPlan) (fresh : List MemberKey) :
    Service Outcome := do
  let safe ← r.persistedOnly S
  pure (.done (r.result carried { p with deferred := false } r.envelopes safe.ring plan false fresh safe))

/-- Stores first-contact pins, if there are any. -/
def Reading.keepFresh (r : Reading) (fresh : List MemberKey) (pins : Pins) : Service (Option KeyPlan) :=
  if fresh = [] then pure none
  else do
    let stored ← ask (.addFresh pins)
    pure (r.pinFailure stored)

/-- A key to seal for a member; nothing when the ring has none. -/
structure Sealing where
  member : MemberKey
  generation : Num
  key : Option KeyRef

/-- `sealAll`: each seal sees the pins that the one before it added. -/
def Reading.sealAll (r : Reading) (me : Me) :
    List Sealing → Pins → Service (List Envelope × Pins × List MemberKey)
  | [], pins => pure ([], pins, [])
  | ⟨member, generation, key⟩ :: rest, pins => do
    let key ← orThrow key
    let ephemeral ← ask (.random 32)
    let first ← orThrow (sealFor S member r.container.id generation key me pins ephemeral.1).toOption
    let (rows, pins, fresh) ← r.sealAll me rest first.pins
    pure (first.envelope :: rows, pins, first.fresh ++ fresh)

/-- The rows to upload, with the pins and the first contacts of their recipients, which are stored; otherwise the plan
with which the pass stops. -/
def Reading.sealed (r : Reading) (me : Me) (sealings : List Sealing) (pins : Pins) :
    Service (Except KeyPlan (List Envelope × Pins × List MemberKey)) := do
  let (rows, pins, fresh) ← r.sealAll S me sealings pins
  match ← r.keepFresh fresh pins with
  | some plan => pure (.error plan)
  | none => pure (.ok (rows, pins, fresh))

def wrapSealings (ring : Keyring) (grants : List Grant) : List Sealing :=
  grants.map fun grant => ⟨grant.member, grant.generation, ring.lookup grant.generation⟩

/-- Another steward came first: once, the pass starts again. -/
def lostRace (attempts : Nat) (carried fresh : List MemberKey) (e : Failure) : Service Outcome :=
  if e = .alreadyExists ∧ attempts = 0 then pure (.retry (carried ++ fresh)) else fail e

def upload (containerID : JsString) (rows : List Envelope) : Service Unit := do
  ask .stepUp
  ask (.putEnvelopes containerID rows)

/-- A sweep that wraps. -/
def Reading.wrap (r : Reading) (attempts : Nat) (carried : List MemberKey) (p : Progress) (me : Me) (grants : List Grant) :
    Service Outcome := do
  match ← r.sealed S me (wrapSealings p.opened.ring grants) p.opened.pins with
  | .error plan => r.stopped S carried p plan p.opened.fresh
  | .ok (rows, _, sealedFresh) =>
    let fresh := p.opened.fresh ++ sealedFresh
    match ← attempt (upload r.container.id rows) with
    | .error e => lostRace attempts carried fresh e
    | .ok () =>
      pure (.done (r.result carried p (r.envelopes ++ rows) p.opened.ring (.sweep p.sweep) false fresh p.opened))

/-- `newContainerKey`. -/
def newContainerKey : Service KeyRef := do
  let bytes ← ask (.random 32)
  pure ⟨bytes.1, bytes.2⟩

/-- The rotation, and the container as the server confirms it. -/
def Reading.rotated (r : Reading) (rows : List Envelope) : Service KeyedContainer := do
  ask .stepUp
  let keyGeneration ← ask (.rotate r.container.id r.container.keyGeneration rows)
  let container : KeyedContainer := { r.container with
    keyGeneration := keyGeneration
    sharedGeneration := if r.container.sharedGeneration = 0 then keyGeneration else r.container.sharedGeneration }
  modify fun latest => latest.map fun saved => ⟨container.id, raiseFloor saved.known container⟩
  ask (.onFloor container.id ⟨some container.sharedGeneration, some container.keyGeneration⟩)
  pure container

/-- The envelopes that the pass last saw and its first contacts, after it wrapped the older generations; a failed write
leaves them to the next pass. -/
def Reading.history (r : Reading) (me : Me) (after : OpenedKeyring) (seen : List Envelope) (pins : Pins) (sweep : SweepPlan) :
    Service (List Envelope × List MemberKey) :=
  match sweep with
  | .wrap grants =>
    if (comparePins pins (r.targets (.wrap grants))).changed ≠ [] then pure (seen, [])
    else do
      let (wrapped, pins, fresh) ← r.sealAll S me (wrapSealings after.ring grants) pins
      match ← r.keepFresh fresh pins with
      | some _ => pure (seen, fresh)
      | none =>
        match ← attempt (upload r.container.id wrapped) with
        | .error _ => pure (seen, fresh)
        | .ok () => pure (seen ++ wrapped, fresh)
  | _ => pure (seen, [])

/-- A sweep that mints. -/
def Reading.mint (r : Reading) (attempts : Nat) (carried : List MemberKey) (p : Progress) (me : Me)
    (recipients : List MemberKey) : Service Outcome := do
  let key ← newContainerKey
  let sealings := recipients.map fun member => ⟨member, r.container.keyGeneration + 1, some key⟩
  match ← r.sealed S me sealings p.opened.pins with
  | .error plan => r.stopped S carried p plan p.opened.fresh
  | .ok (rows, pins, sealedFresh) =>
    let fresh := p.opened.fresh ++ sealedFresh
    match ← attempt (r.rotated rows) with
    | .error e => lostRace attempts carried fresh e
    | .ok container =>
      let minted := { r with container }
      let seen := r.envelopes ++ rows
      let after ← minted.trusted (minted.opened S pins seen p.opened.ring)
      let next := minted.plan after seen
      let (seen, wrappedFresh) ← minted.history S me after seen pins next.1
      pure (.done (minted.result carried { p with deferred := next.2 } seen after.ring (.sweep p.sweep) true
        (fresh ++ wrappedFresh) after))

/-- A pass from its first contacts on. -/
def Reading.share (r : Reading) (attempts : Nat) (carried : List MemberKey) (p : Progress) : Service Outcome := do
  match ← r.keepFresh p.opened.fresh p.opened.pins with
  | some plan => r.stopped S carried p plan []
  | none =>
    let _ ← r.trusted p.opened
    match r.caller.me, p.sweep with
    | some me, .mint recipients => r.mint S attempts carried p me recipients
    | some me, .wrap grants => r.wrap S attempts carried p me grants
    | _, _ => pure (.done (r.result carried p r.envelopes p.opened.ring (.sweep p.sweep) false p.opened.fresh p.opened))

/-! ## Passes -/

/-- The opened keyring, if no first contact is in it. -/
def Reading.safe (r : Reading) (opened : OpenedKeyring) : Service OpenedKeyring :=
  if opened.fresh = [] then r.trusted opened else r.persistedOnly S

/-- Under a rollback the keyring is opened and nothing is pinned or shared. -/
def Reading.rolledBack (r : Reading) (opened : OpenedKeyring) : Service Outcome := do
  let safe ← r.safe S opened
  pure (.done ⟨r.container, safe.ring, false, raiseFloor safe.known r.container, .rollback, [], [], safe.conflicts,
    r.members, r.envelopes, false⟩)

/-- `pass`. -/
def pass (rounds attempts : Nat) (containerID : JsString) (caller : Caller) (held : Keyring) (carried : List MemberKey) :
    Service Outcome := do
  let (r, rollback) ← reading containerID caller held
  let pins ← ask .loadPins
  if rollback then r.rolledBack S (r.opened S pins r.envelopes r.held)
  else do
    let (p, stop) ← r.confirmed S rounds (r.reopened S pins [])
    match stop with
    | some plan => r.stopped S carried p plan []
    | none => r.share S attempts carried p

abbrev ServiceProg := Prog Call fun c => Except Failure c.Value

/-- The end of an attempt: its key memory is written, also after a failure. -/
def saveLatest : Option Saved → ServiceProg Bool
  | none => .ret false
  | some saved => .ask (.saveKeyState saved.containerID saved.known) fun kept =>
    match kept with
    | .ok kept => .ret kept
    | .error _ => .ret false

/-- One attempt, and whether its key memory is kept. -/
def attemptOnce (rounds attempts : Nat) (containerID : JsString) (caller : Caller) (held : Keyring)
    (carried : List MemberKey) : ServiceProg (Except Failure Outcome × Bool) :=
  (pass S rounds attempts containerID caller held carried none).bind fun out =>
    (saveLatest out.1).bind fun keyStateSaved => .ret (out.2, keyStateSaved)

/-- `syncContainerKeys`. A second attempt never asks for a third. -/
def syncContainerKeys (rounds : Nat) (containerID : JsString) (caller : Caller) (held : Keyring) :
    ServiceProg (Except Failure KeySync) :=
  (attemptOnce S rounds 0 containerID caller held []).bind fun
    | (.error e, _) => .ret (.error e)
    | (.ok (.done pass), keyStateSaved) => .ret (.ok ⟨pass, keyStateSaved⟩)
    | (.ok (.retry carried), _) => (attemptOnce S rounds 1 containerID caller held carried).bind fun
      | (.error e, _) => .ret (.error e)
      | (.ok (.done pass), keyStateSaved) => .ret (.ok ⟨pass, keyStateSaved⟩)
      | (.ok (.retry _), _) => .ret (.error .alreadyExists)

/-! ## Invitations -/

inductive InviteKeys
  | sealed | cannotWrap | rollback | noKeys | noIdentity | invalidIdentity | untrusted | pinsUnsaved | moved
deriving DecidableEq

structure InviteTarget where
  container : KeyedContainer
  ring : Keyring
  /-- Nothing while this tab has not loaded it. -/
  floor : Option KeyFloor

/-- `plain`: the invitation goes out without keys. -/
def plainInvite (target : InviteTarget) (invitee : Member) (keys : InviteKeys) : Service InviteKeys := do
  ask (.invite target.container.id invitee.userId invitee.role [])
  pure keys

/-- The key that may leave: the current one, if it is the one that this device accepted. -/
def InviteTarget.key (target : InviteTarget) (state : KeyState) : Option KeyRef :=
  if target.container.sharedGeneration ≤ 0 then none
  else (target.ring.lookup target.container.keyGeneration).filter fun key =>
    state.digests.lookup target.container.keyGeneration = some (S.sha256 key.bytes)

/-- The pins with which the key is sealed, after a changed one is confirmed. -/
def invitePins (member : MemberKey) : Service (Except InviteKeys Pins) := do
  let pins ← ask .loadPins
  match (comparePins pins [member]).changed with
  | [] => pure (.ok pins)
  | change :: rest =>
    let trusts : Bool ← ask (.confirmChanged (change :: rest))
    if trusts then do
      let confirmation ← orThrow (confirmFingerprintChange pins member)
      let kept : Bool ← ask (.confirm confirmation change.pinned)
      if kept then pure (.ok confirmation.pins) else pure (.error .pinsUnsaved)
    else pure (.error .untrusted)

/-- A first-seen pin is kept before the key leaves. -/
def keepInvited (member : MemberKey) (publicKey : JsString) (fresh : List MemberKey) : Service (Option InviteKeys) :=
  if fresh = [] then pure none
  else do
    let stored ← ask (.addFresh (Record.set Table.empty member.userId publicKey))
    match stored with
    | .ok => pure none
    | .refused conflicts => pure (some (if conflicts = [] then .pinsUnsaved else .untrusted))

/-- The last step: where the server refuses the envelope, the invitation goes out without it. -/
def sendInvite (target : InviteTarget) (invitee : Member) (envelope : Envelope) : Service InviteKeys := do
  ask .stepUp
  match ← attempt (ask (.invite target.container.id invitee.userId invitee.role [⟨envelope, target.container.id⟩])) with
  | .ok () => pure .sealed
  | .error .alreadyExists => plainInvite target invitee .moved
  | .error .invalidRequest => plainInvite target invitee .invalidIdentity
  | .error e => fail e

/-- The invitation of a member whose key is known. -/
def sealInvite (target : InviteTarget) (invitee : Member) (me : Me) (key : KeyRef) (identity : PublicIdentity) :
    Service InviteKeys := do
  let member : MemberKey := ⟨invitee, some identity⟩
  match ← invitePins member with
  | .error keys => plainInvite target invitee keys
  | .ok pins =>
    let ephemeral ← ask (.random 32)
    let out ← orThrow
      (sealFor S member target.container.id target.container.keyGeneration key me pins ephemeral.1).toOption
    match ← keepInvited member identity.publicKey out.fresh with
    | some keys => plainInvite target invitee keys
    | none => sendInvite target invitee out.envelope

/-- `inviteWithKeys`: whether the invitation carries the key, and if not, why. -/
def inviteWithKeys (target : InviteTarget) (invitee : Member) (caller : Caller) : Service InviteKeys :=
  match caller.me, target.floor with
  | none, _ => plainInvite target invitee .cannotWrap
  | some me, floor =>
    if caller.canWrap = false then plainInvite target invitee .cannotWrap
    else
      match floor with
      | none => plainInvite target invitee .noKeys
      | some floor => do
        let state ← ask (.loadKeyState target.container.id)
        if keysAllowed target.container (mergeFloor (some floor) state.toKeyFloor) = false then
          plainInvite target invitee .rollback
        else
          match target.key S state with
          | none => plainInvite target invitee .noKeys
          | some key => do
            match ← ask (.userIdentity invitee.userId) with
            | none => plainInvite target invitee .noIdentity
            | some identity =>
              if validKey identity.publicKey = false then plainInvite target invitee .invalidIdentity
              else sealInvite S target invitee me key identity

/-! ## Surroundings -/

/-- Where a pass runs: the vault over time, the account it belongs to, and the identities that the server may show. -/
structure Env where
  vault : Nat → Vault
  username : JsString
  userID : JsString
  Shown : JsString → PublicIdentity → Prop

/-- An operation on the vault at time `i`, and what it answers. -/
def Env.Wrote {α : Type} (w : Env) (i j : Nat) (next : Vault × α) (out : α) : Prop :=
  w.vault (i + 1) = next.1 ∧ out = next.2 ∧ j = i + 1

/-- How calls are answered: the vault's transactions are atomic, and may fail without effect; the server and the user
answer as they like. -/
def Env.Answers (w : Env) (i : Nat) : (c : Call) → Except Failure c.Value → Nat → Prop
  | .userIdentity user, .ok (some identity), j => w.Shown user identity ∧ i ≤ j
  | .loadPins, .ok pins, j => pins = getPins (w.vault i) w.username w.userID ∧ j = i
  | .loadKeyState containerID, .ok state, j => state = getKeyState (w.vault i) w.username w.userID containerID ∧ j = i
  | .addFresh pins, .ok out, j =>
    w.Wrote i j (storePins (w.vault i) w.username w.userID pins) out ∨ out = .refused [] ∧ j = i
  | .confirm confirmation expected, .ok kept, j =>
    w.Wrote i j (storeConfirmedPin (w.vault i) w.username w.userID confirmation (some expected)) kept ∨
      kept = false ∧ j = i
  | .saveKeyState containerID state, .ok kept, j =>
    w.Wrote i j (storeKeyState (w.vault i) w.username w.userID containerID state) kept ∨ kept = false ∧ j = i
  | _, _, j => i ≤ j

theorem Env.Answers.le {w : Env} {i j : Nat} {c : Call} {x : Except Failure c.Value} (h : w.Answers i c x j) : i ≤ j := by
  cases x with
  | error e => cases c <;> exact h
  | ok v =>
    cases c with
    | userIdentity =>
      cases v with
      | none => exact h
      | some identity => exact h.2
    | loadPins => exact h.2.ge
    | loadKeyState => exact h.2.ge
    | addFresh | confirm | saveKeyState =>
      rcases h with ⟨-, -, rfl⟩ | ⟨-, rfl⟩
      · exact Nat.le_succ _
      · exact Nat.le_refl _
    | _ => exact h

instance {α : Type} [DecidableEq α] (w : Env) (i j : Nat) (next : Vault × α) (out : α) : Decidable (w.Wrote i j next out) :=
  inferInstanceAs (Decidable (_ ∧ _ ∧ _))

instance Env.Answers.decidable (w : Env) [∀ u i, Decidable (w.Shown u i)] (i : Nat) :
    ∀ (c : Call) (x : Except Failure c.Value) (j : Nat), Decidable (w.Answers i c x j)
  | .userIdentity _, .ok (some _), _ => inferInstanceAs (Decidable (_ ∧ _))
  | .userIdentity _, .ok none, _ => inferInstanceAs (Decidable (_ ≤ _))
  | .loadPins, .ok _, _ | .loadKeyState _, .ok _, _ => inferInstanceAs (Decidable (_ ∧ _))
  | .addFresh _, .ok _, _ | .confirm _ _, .ok _, _ | .saveKeyState _ _, .ok _, _ =>
    inferInstanceAs (Decidable (Env.Wrote _ _ _ _ _ ∨ _ ∧ _))
  | .container _, .ok _, _ | .envelopes _, .ok _, _ | .members _, .ok _, _ | .rotate _ _ _, .ok _, _
  | .confirmChanged _, .ok _, _ | .random _, .ok _, _ | .stepUp, .ok _, _ | .putEnvelopes _ _, .ok _, _
  | .invite _ _ _ _, .ok _, _ | .onFloor _ _, .ok _, _ => inferInstanceAs (Decidable (_ ≤ _))
  | c, .error _, _ => by cases c <;> exact inferInstanceAs (Decidable (_ ≤ _))

/-- A device that answers at once, with what the server and the user say and when they say it. -/
def Env.oracle (w : Env) (others : Nat → (c : Call) → Option (c.Value × Nat)) : Oracle Call fun c => Except Failure c.Value :=
  fun t c =>
    match c with
    | .loadPins => (.ok (getPins (w.vault t) w.username w.userID), t)
    | .loadKeyState containerID => (.ok (getKeyState (w.vault t) w.username w.userID containerID), t)
    | .addFresh pins => (.ok (storePins (w.vault t) w.username w.userID pins).2, t + 1)
    | .confirm confirmation expected =>
      (.ok (storeConfirmedPin (w.vault t) w.username w.userID confirmation (some expected)).2, t + 1)
    | .saveKeyState containerID state => (.ok (storeKeyState (w.vault t) w.username w.userID containerID state).2, t + 1)
    | .random size => (.ok ⟨List.replicate size 0, List.length_replicate⟩, t)
    | c =>
      match others t c with
      | some (v, j) => (.ok v, j)
      | none => (.error .other, t)

end KyNotes.Web
