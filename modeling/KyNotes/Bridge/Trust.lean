import KyNotes.Web.Keyring

/-!
# The bridge's trust (`cmd/kynotes-mcp/trust.go`, `internal/teamkeys`)

What the bridge remembers of a notebook, and which keys it accepts from envelopes: the port of `openKeyring` of the browser.
A text of the server's JSON is the code units of it, as in the browser; digests are kept by generation instead of by its
decimal digits. The iteration order of a map is that of its record, which is arbitrary.
-/

namespace KyNotes.Bridge

open Relational Web

/-- A member as the server lists it, with the identity it shows for them. -/
abbrev Member := MemberKey

structure EnvelopeRow where
  deviceId : JsString
  keyGeneration : Int
  alg : Alg
  envelope : JsString
deriving DecidableEq

/-- What the bridge remembers of a notebook. -/
structure KeyState where
  /-- The highest generation accepted from itself or a current steward. -/
  mark : Int
  /-- The highest `sharedGeneration` seen. -/
  shared : Int
  /-- The highest `keyGeneration` seen. -/
  generation : Int
  digests : Record Int Digest
  /-- 2 once the migration marker was seen. -/
  objects : Int
deriving DecidableEq

/-- `keyState{}`. -/
def KeyState.zero : KeyState := ⟨0, 0, 0, Table.empty, 0⟩

/-- The fields of a container that `refresh` reads. -/
structure Container where
  id : JsString
  keyGeneration : Int
  sharedGeneration : Int
  metaCiphertext : JsString
deriving DecidableEq

/-- `raise`; nothing is `errRollback`. -/
def KeyState.raise (k : KeyState) (c : Container) : Option KeyState :=
  if c.sharedGeneration < k.shared ∨ c.keyGeneration < k.generation then none
  else some { k with shared := c.sharedGeneration, generation := c.keyGeneration }

/-- The bridge's own identity. -/
structure Self where
  userID : JsString
  deviceID : JsString
  key : Bytes

/-! ## Envelopes -/

section Envelopes

variable (S : Suite)

/-- `EnvelopeSender`: nothing is an error. -/
def envelopeSender (alg : Alg) (envelope : Bytes) : Option JsString :=
  match alg with
  | .other => none
  | .hpkeAuth | .legacy =>
    let (version, size) : UInt8 × Nat := if alg = .legacy then (2, LEGACY_ENVELOPE_BYTES) else (3, ENVELOPE_BYTES)
    let sender := ((envelope.drop 1).take ID_BYTES).map UInt8.toUInt16
    if envelope.length ≠ size ∨ envelope.head? ≠ some version ∨ isId .dev sender = false then none else some sender

/-- `envelopeContext`, of a generation below 2 ^ 32. -/
def envelopeContext (label : String) (containerID : JsString) (generation : Nat)
    (recipientDeviceID senderDeviceID : JsString) : Option Bytes :=
  if isId .cnt containerID = false ∨ isId .dev recipientDeviceID = false ∨ isId .dev senderDeviceID = false ∨ generation = 0 then
    none
  else
    some (utf8 label ++ containerID.map UInt16.toUInt8 ++
      [UInt8.ofNat (generation / 16777216), UInt8.ofNat (generation / 65536), UInt8.ofNat (generation / 256),
        UInt8.ofNat generation] ++ recipientDeviceID.map UInt16.toUInt8 ++ senderDeviceID.map UInt16.toUInt8)

/-- `openLegacyEnvelope`. -/
def openLegacyEnvelope (envelope recipient : Bytes) (containerID : JsString) (generation : Nat)
    (recipientDeviceID senderDeviceID : JsString) (senderPub : Bytes) : Option Bytes := do
  let aad ← envelopeContext "kynotes/envelope/v2" containerID generation recipientDeviceID senderDeviceID
  let ephPub := (envelope.take 63).drop (1 + ID_BYTES)
  let nonce := (envelope.take 75).drop 63
  if senderPub.length ≠ 32 then none
  let ephShared ← S.getSharedSecret recipient ephPub
  let staticShared ← S.getSharedSecret recipient senderPub
  let salt := ephPub ++ S.getPublicKey recipient ++ senderPub
  let key := S.hkdfSha256 (ephShared ++ staticShared) 32 salt (utf8 "kynotes/envelope/v2")
  S.decrypt key nonce aad (envelope.drop 75)

/-- `OpenEnvelope`. -/
def openEnvelope (alg : Alg) (envelope recipient : Bytes) (containerID : JsString) (generation : Nat)
    (recipientDeviceID : JsString) (senderPub : Bytes) : Option Bytes := do
  let senderDeviceID ← envelopeSender alg envelope
  if alg = .legacy then
    openLegacyEnvelope S envelope recipient containerID generation recipientDeviceID senderDeviceID senderPub
  else
    let info ← envelopeContext "kynotes/envelope/v3" containerID generation recipientDeviceID senderDeviceID
    let enc := (envelope.take (1 + ID_BYTES + 32)).drop (1 + ID_BYTES)
    if senderPub.length ≠ 32 then none
    else S.hpkeOpen recipient senderPub enc info (envelope.drop (1 + ID_BYTES + 32))

end Envelopes

/-! ## Opening a keyring -/

/-- A public key of 32 bytes in base64. -/
def publicKey (s : JsString) : Option Bytes := (Base64.decodeStd s).filter fun raw => raw.length = 32

/-- `sameKey`. -/
def sameKey (a b : JsString) : Bool :=
  match publicKey a, publicKey b with
  | some x, some y => x = y
  | _, _ => false

/-- `pinChangedError`. -/
structure PinChanged where
  userID : JsString
  username : JsString
  pinned : JsString
  now : JsString
deriving DecidableEq

structure OpenedRing where
  ring : Record Int Bytes
  /-- Stewards pinned on first contact. -/
  fresh : List Member
  known : KeyState

section Opening

variable (S : Suite) (containerID : JsString) (me : Self) (members : List Member) (pins : Pins)

/-- `accept`: the first key of a generation wins, across runs through the stored digest. -/
def accept (out : OpenedRing) (generation : Int) (key : Bytes) : OpenedRing × Bool :=
  let digest := S.sha256 key
  match out.ring.lookup generation with
  | some prior => (out, prior = key)
  | none =>
    if (out.known.digests.lookup generation).any fun stored => stored ≠ digest then (out, false)
    else
      ({ out with
          ring := out.ring.set generation key
          known := { out.known with digests := out.known.digests.set generation digest } }, true)

/-- `open`. -/
def openKey (alg : Alg) (envelope : Bytes) (generation : Int) (sender : Bytes) : Option Bytes :=
  if generation < 1 ∨ generation > 4294967295 then none
  else openEnvelope S alg envelope me.key containerID generation.toNat me.deviceID sender

/-- An envelope left for the second pass. -/
structure Row where
  alg : Alg
  envelope : Bytes
  generation : Int

/-- What the first pass has found. -/
structure Pass where
  out : OpenedRing
  newPins : Pins
  deferred : List Row

/-- The last member that is a steward with the device. -/
def stewardOf (sender : JsString) : Option Member :=
  members.reverse.find? fun m =>
    m.identity.any (fun i => i.deviceId = sender) && m.userId ≠ me.userID && isSteward m.role && isId .usr m.userId

/-- The key that a row is opened with, and the steward that it is of: nothing where the row is skipped. -/
def senderKey (newPins : Pins) (sender : JsString) : Except PinChanged (Option (Option Bytes × Option Member)) :=
  if sender = me.deviceID then .ok (some (some (S.getPublicKey me.key), none))
  else
    match stewardOf me members sender with
    | none => .ok (some (none, none))
    | some steward =>
      let shown := (steward.identity.map PublicIdentity.publicKey).getD []
      match publicKey shown with
      | none => .ok none
      | some pub =>
        match (pins.lookup steward.userId).or (newPins.lookup steward.userId) with
        | some pinned =>
          if sameKey pinned shown = false then .error ⟨steward.userId, steward.username, pinned, shown⟩
          else .ok (some (some pub, some steward))
        | none => .ok (some (some pub, some steward))

/-- A steward that is not pinned is pinned. -/
def pin (p : Pass) (steward : Option Member) : Pass :=
  match steward with
  | none => p
  | some m =>
    if (pins.lookup m.userId).isSome ∨ (p.newPins.lookup m.userId).isSome then p
    else
      { p with
        newPins := p.newPins.set m.userId ((m.identity.map PublicIdentity.publicKey).getD [])
        out := { p.out with fresh := p.out.fresh ++ [m] } }

/-- A row with a sender key, if the sender has one here: what opens is accepted or refused, the rest is left for later. -/
def openWith (p : Pass) (alg : Alg) (envelope : Bytes) (generation : Int) (pub : Option Bytes) (steward : Option Member) :
    Pass :=
  match pub.bind (openKey S containerID me alg envelope generation) with
  | none => { p with deferred := p.deferred ++ [⟨alg, envelope, generation⟩] }
  | some key =>
    let (out, accepted) := accept S p.out generation key
    if accepted then
      let out := { out with known := { out.known with mark := max out.known.mark generation } }
      pin pins { p with out } steward
    else p

/-- The first pass over one row. -/
def openRow (p : Pass) (r : EnvelopeRow) : Except PinChanged Pass :=
  if r.deviceId ≠ me.deviceID ∨ r.alg = .other then .ok p
  else
    match Base64.decodeStd r.envelope with
    | none => .ok p
    | some envelope =>
      match envelopeSender r.alg envelope with
      | none => .ok p
      | some sender =>
        match senderKey S me members pins p.newPins sender with
        | .error e => .error e
        | .ok none => .ok p
        | .ok (some (pub, steward)) =>
          .ok (openWith S containerID me pins p r.alg envelope r.keyGeneration pub steward)

def openRows : Pass → List EnvelopeRow → Except PinChanged Pass
  | p, [] => .ok p
  | p, r :: rows =>
    match openRow S containerID me members pins p r with
    | .error e => .error e
    | .ok p => openRows p rows

/-- The second pass over one envelope: history from identities pinned before the call, strictly below the mark. -/
def openDeferred (out : OpenedRing) (d : Row) : OpenedRing :=
  if d.generation ≥ out.known.mark then out
  else
    let pinnedKeys := pins.rows.filterMap fun pin => publicKey pin.2
    match pinnedKeys.findSome? (openKey S containerID me d.alg d.envelope d.generation) with
    | none => out
    | some key => (accept S out d.generation key).1

/-- `openKeyring`. -/
def openKeyring (rows : List EnvelopeRow) (known : KeyState) : Except PinChanged OpenedRing :=
  match openRows S containerID me members pins ⟨⟨Table.empty, [], known⟩, Table.empty, []⟩ rows with
  | .error e => .error e
  | .ok p => .ok (p.deferred.foldl (openDeferred S containerID me pins) p.out)

end Opening

/-- `readKey`: a row opens only with its own generation's key, at or above the first keyed generation. -/
def readKey (ring : Record Int Bytes) (shared generation : Int) : Option Bytes :=
  if shared = 0 ∨ generation < shared then none else ring.lookup generation

end KyNotes.Bridge
