import KyNotes.Web.Pins

/-!
# The keyring

`keyring.ts`: which container keys this browser accepts from envelopes, which key it writes and reads with, and what a
steward's browser has to share. What a device remembers of a container (`KeyState`) is never taken from the server.
-/

namespace KyNotes.Web

open Relational

/-- A container key: 32 bytes. -/
structure KeyRef where
  bytes : Bytes
  length_eq : bytes.length = 32
deriving DecidableEq

/-- Nothing where it throws. -/
def asContentKey (bytes : Bytes) : Option KeyRef :=
  if h : bytes.length = 32 then some ⟨bytes, h⟩ else none

structure Envelope where
  deviceId : JsString
  keyGeneration : Num
  alg : Alg
  envelope : JsString
deriving DecidableEq

/-- The fields of a container that decide its keys. -/
structure KeyedContainer where
  id : JsString
  keyGeneration : Num
  sharedGeneration : Num
deriving DecidableEq

/-- Container keys by generation. -/
abbrev Keyring := Record Num KeyRef

structure WriteKey where
  key : KeyRef
  generation : Num

/-- The identity that this browser holds. -/
structure HeldIdentity where
  deviceId : JsString
  publicKey : Bytes
  privateKey : Bytes
deriving DecidableEq

/-- This browser's identity and the user it belongs to. -/
structure Me extends HeldIdentity where
  userId : JsString

/-! ## Floors -/

/-- The highest generations that this device has seen of a container; absent is 0. -/
structure KeyFloor where
  shared : Option Num
  generation : Option Num
deriving DecidableEq

/-- What this device remembers of a container. -/
structure KeyState extends KeyFloor where
  /-- The highest generation accepted from itself or a current steward. -/
  mark : Num
  /-- The SHA-256 of every accepted key. -/
  digests : Record Num Digest
  /-- `objects: 2`. -/
  objects : Bool
deriving DecidableEq

/-- The key memory of a container that this device does not know. -/
def KeyState.unknown : KeyState := ⟨⟨none, none⟩, 0, Table.empty, false⟩

def raiseFloor (floor : KeyState) (container : KeyedContainer) : KeyState :=
  { floor with
    shared := some (max (floor.shared.getD 0) container.sharedGeneration)
    generation := some (max (floor.generation.getD 0) container.keyGeneration) }

def mergeFloor (floor : Option KeyFloor) (next : KeyFloor) : KeyFloor where
  shared := some (max ((floor.bind KeyFloor.shared).getD 0) (next.shared.getD 0))
  generation := some (max ((floor.bind KeyFloor.generation).getD 0) (next.generation.getD 0))

/-- The container as this device takes it, and whether the server reports less than this device has seen. -/
def guardContainer (container : KeyedContainer) (floor : KeyFloor) : KeyedContainer × Bool :=
  let shared := floor.shared.getD 0
  let generation := floor.generation.getD 0
  ({ container with
      sharedGeneration := max container.sharedGeneration shared
      keyGeneration := max container.keyGeneration generation },
    container.sharedGeneration < shared || container.keyGeneration < generation)

def keysAllowed (container : KeyedContainer) (floor : KeyFloor) : Bool := !(guardContainer container floor).2

/-- The key that new content is sealed with. -/
def writeKey (reported : KeyedContainer) (ring : Keyring) (floor : KeyFloor) : Option WriteKey :=
  let (container, rollback) := guardContainer reported floor
  if rollback || container.sharedGeneration = 0 then none
  else (ring.lookup container.keyGeneration).map fun key => ⟨key, container.keyGeneration⟩

/-- The keys that a row of the server may be read with. -/
def readKeys (sharedGeneration : Num) (ring : Keyring) (generation : Option Num) (floor : KeyFloor) : List KeyRef :=
  let shared := max sharedGeneration (floor.shared.getD 0)
  match generation with
  | none => []
  | some generation =>
    if shared = 0 ∨ isInteger generation = false ∨ generation < shared then []
    else (ring.lookup generation).toList

/-! ## Opening envelopes -/

structure OpenKeyringInput where
  containerID : JsString
  envelopes : List Envelope
  me : Option Me
  members : List MemberKey
  pins : Pins
  /-- This device's key memory of the container. -/
  known : KeyState
  /-- Keys accepted earlier in this session. -/
  held : Keyring

/-- The keys opened, the pins to persist with the members pinned now, the members whose key is not the pinned one, the
generations where an envelope disagreed, and the key memory. -/
structure OpenedKeyring where
  ring : Keyring
  pins : Pins
  fresh : List MemberKey
  changed : List PinChange
  conflicts : List Num
  known : KeyState

variable (S : Suite)

/-- Whether the key of the generation, or else its stored digest, is the one of this digest. -/
def matchesKnown (out : OpenedKeyring) (generation : Num) (digest : Digest) : Bool :=
  match out.ring.lookup generation with
  | some prior => S.sha256 prior.bytes = digest
  | none => (out.known.digests.lookup generation).getD digest = digest

/-- The keyring with a key that matches, and its digest. -/
def remember (out : OpenedKeyring) (generation : Num) (key : KeyRef) : OpenedKeyring :=
  { out with
    ring := out.ring.set generation ((out.ring.lookup generation).getD key)
    known := { out.known with
      digests := if (out.known.digests.lookup generation).isSome then out.known.digests
        else out.known.digests.set generation (S.sha256 key.bytes) } }

def addConflict (out : OpenedKeyring) (generation : Num) : OpenedKeyring :=
  { out with conflicts := if generation ∈ out.conflicts then out.conflicts else out.conflicts ++ [generation] }

/-- The first key of a generation wins, across reloads through the stored digest. -/
def accept (out : OpenedKeyring) (generation : Num) (key : KeyRef) : OpenedKeyring × Bool :=
  if matchesKnown S out generation (S.sha256 key.bytes) then (remember S out generation key, true)
  else (addConflict out generation, false)

/-- What the claimed sender of an envelope is here. -/
inductive Sender
  /-- This identity. -/
  | self
  /-- Another identity under the caller's own account. -/
  | own
  /-- A current owner or admin whose key is the pinned one, or who has no pin yet. -/
  | steward (member : MemberKey) (identity : PublicIdentity) (firstContact : Bool)
  /-- A current owner or admin whose key is not the pinned one. -/
  | changed (member : MemberKey) (pinned : JsString)
  | stranger

def senderOf (me : Me) (members : List MemberKey) (pins : Pins) (sender : JsString) : Sender :=
  if sender = me.deviceId then .self
  else
    match members.find? fun entry => entry.identity.any fun i => i.deviceId = sender with
    | none => .stranger
    | some member =>
      if member.userId = me.userId then .own
      else if isSteward member.role then
        match member.identity, pins.lookup member.userId with
        | none, _ => .stranger
        | some identity, none => .steward member identity true
        | some identity, some pinned =>
          if sameKey pinned identity.publicKey then .steward member identity false else .changed member pinned
      else .stranger

/-- An envelope left for the second pass. -/
structure Deferred where
  alg : Alg
  envelope : Bytes
  generation : Num

def openEnvelope (containerID : JsString) (me : Me) (alg : Alg) (envelope : Bytes) (generation : Num) (sender : Bytes) :
    Option KeyRef :=
  (unwrapEnvelope S alg envelope me.privateKey containerID generation me.deviceId sender).bind asContentKey

/-- A key of this identity or of a steward: it raises the mark, and pins a steward seen first. -/
def adopt (out : OpenedKeyring) (generation : Num) (key : KeyRef) (firstContact : Option (MemberKey × PublicIdentity)) :
    OpenedKeyring :=
  let (out, accepted) := accept S out generation key
  if accepted then
    let out := { out with known := { out.known with mark := max out.known.mark generation } }
    match firstContact with
    | none => out
    | some (member, identity) =>
      { out with pins := out.pins.set member.userId identity.publicKey, fresh := out.fresh ++ [member] }
  else out

/-- The first pass over one row. -/
def openRow (input : OpenKeyringInput) (me : Me) (st : OpenedKeyring × List Deferred) (row : Envelope) :
    OpenedKeyring × List Deferred :=
  let (out, deferred) := st
  if row.deviceId ≠ me.deviceId ∨ row.alg = .other then st
  else
    match fromBase64 row.envelope with
    | none => st
    | some envelope =>
      let later := deferred ++ [⟨row.alg, envelope, row.keyGeneration⟩]
      match (envelopeSender row.alg envelope).map (senderOf me input.members out.pins) with
      | none | some .own => st
      | some .stranger => (out, later)
      | some (.changed member pinned) =>
        let changed := if out.changed.any fun c => c.member.userId = member.userId then out.changed
          else out.changed ++ [⟨member, pinned⟩]
        ({ out with changed }, later)
      | some .self =>
        match openEnvelope S input.containerID me row.alg envelope row.keyGeneration me.publicKey with
        | none => (out, later)
        | some key => (adopt S out row.keyGeneration key none, deferred)
      | some (.steward member identity firstContact) =>
        match publicKeyBytes identity.publicKey with
        | none => st
        | some senderKey =>
          match openEnvelope S input.containerID me row.alg envelope row.keyGeneration senderKey with
          | none => (out, later)
          | some key =>
            (adopt S out row.keyGeneration key (if firstContact then some (member, identity) else none), deferred)

/-- The second pass over one envelope: history from identities pinned before the call, below the mark. -/
def openDeferred (input : OpenKeyringInput) (me : Me) (out : OpenedKeyring) (d : Deferred) : OpenedKeyring :=
  if out.known.mark ≤ d.generation then out
  else
    let pinnedKeys := input.pins.rows.filterMap fun pin => publicKeyBytes pin.2
    match pinnedKeys.findSome? (openEnvelope S input.containerID me d.alg d.envelope d.generation) with
    | none => out
    | some key => (accept S out d.generation key).1

def openKeyring (input : OpenKeyringInput) : OpenedKeyring :=
  let out : OpenedKeyring := ⟨Table.empty, input.pins, [], [], [], { input.known with mark := max 0 input.known.mark }⟩
  let out := input.held.rows.foldl (fun out entry => (accept S out entry.1 entry.2).1) out
  match input.me with
  | none => out
  | some me =>
    let (out, deferred) := input.envelopes.foldl (openRow S input me) (out, [])
    deferred.foldl (openDeferred S input me) out

/-! ## Sharing -/

structure Grant where
  member : MemberKey
  generation : Num
deriving DecidableEq

inductive SweepPlan
  | idle
  | unrecoverable
  | mint (recipients : List MemberKey)
  | wrap (grants : List Grant)

/-- What an owner's or admin's browser must do so that every member holds the container keys. -/
def planSweep (container : KeyedContainer) (me : JsString) (members : List MemberKey) (envelopes : List Envelope)
    (ring : Keyring) (recoverable : Bool) : SweepPlan :=
  match members.find? fun member => member.userId = me with
  | none => .idle
  | some self =>
    if self.identity.isNone ∨ isSteward self.role = false then .idle
    else
      let keyed := members.filter fun member => member.identity.isSome && member.approved
      if container.sharedGeneration = 0 then if recoverable then .mint keyed else .unrecoverable
      else if (envelopes.any fun row => row.keyGeneration = container.keyGeneration) = false then .mint keyed
      else
        let grants := keyed.flatMap fun member =>
          ((ring.rows.map Prod.fst).filter fun generation =>
            container.sharedGeneration ≤ generation ∧ generation ≤ container.keyGeneration ∧
              ¬envelopes.any fun row => member.identity.any (fun i => i.deviceId = row.deviceId) ∧
                row.keyGeneration = generation).map (Grant.mk member)
        if grants = [] then .idle else .wrap grants

inductive SealError
  | noIdentity
  | invalidKey
  | ownIdentityMismatch
  | fingerprintChanged (member : MemberKey) (pinned : JsString)
  | invalidEnvelope

structure SealedFor where
  envelope : Envelope
  pins : Pins
  fresh : List MemberKey

/-- Seals a key for a member: for this user only for this identity, for a colleague only for the pinned key; a colleague
seen first is pinned. -/
def sealFor (member : MemberKey) (containerID : JsString) (generation : Num) (key : KeyRef) (me : Me) (pins : Pins)
    (ephemeral : Bytes) : Except SealError SealedFor :=
  match member.identity with
  | none => .error .noIdentity
  | some identity =>
    match publicKeyBytes identity.publicKey with
    | none => .error .invalidKey
    | some recipient =>
      let pinned : Except SealError (Pins × List MemberKey) :=
        if member.userId = me.userId then
          if identity.deviceId ≠ me.deviceId ∨ sameKey identity.publicKey (base64 me.publicKey) = false then
            .error .ownIdentityMismatch
          else .ok (pins, [])
        else
          match pins.lookup member.userId with
          | none => .ok (pins.set member.userId identity.publicKey, [member])
          | some pinned =>
            if sameKey pinned identity.publicKey then .ok (pins, []) else .error (.fingerprintChanged member pinned)
      match pinned with
      | .error e => .error e
      | .ok (next, fresh) =>
        match wrapEnvelope S key.bytes recipient containerID generation identity.deviceId me.deviceId me.privateKey
            ephemeral with
        | none => .error .invalidEnvelope
        | some envelope => .ok ⟨⟨identity.deviceId, generation, .hpkeAuth, base64 envelope⟩, next, fresh⟩

end KyNotes.Web
