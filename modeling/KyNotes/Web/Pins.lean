import KyNotes.Lib.Record
import KyNotes.Web.Envelopes

/-!
# Pins

`pins.ts`: the identity key that this device trusts for each colleague, kept from the first contact on.
-/

namespace KyNotes.Web

open Relational

/-- Colleague to identity public key, in base64. -/
abbrev Pins := Record JsString JsString

/-- `Pick<PublicIdentity, "deviceId" | "publicKey">`. -/
structure PublicIdentity where
  deviceId : JsString
  publicKey : JsString
deriving DecidableEq

/-- A member as the server lists it. -/
structure Member where
  userId : JsString
  username : JsString
  role : Role
  /-- False only for a member that no steward has approved yet. -/
  approved : Bool
deriving DecidableEq

/-- A member and its identity, when it has one that the server shows. -/
structure MemberKey extends Member where
  identity : Option PublicIdentity
deriving DecidableEq

structure PinChange where
  member : MemberKey
  pinned : JsString
deriving DecidableEq

/-- Nothing where it throws. -/
def publicKeyBytes (publicKey : JsString) : Option Bytes := do
  let raw ← fromBase64 publicKey
  if raw.length = 32 then some raw else none

def validKey (key : JsString) : Bool := (publicKeyBytes key).isSome

/-- True only when both decode to the same 32 bytes. -/
def sameKey (a b : JsString) : Bool :=
  match publicKeyBytes a, publicKeyBytes b with
  | some x, some y => x = y
  | _, _ => false

/-- Proof that the user confirmed a changed fingerprint. -/
structure PinConfirmation where
  userId : JsString
  key : JsString
  pins : Pins
deriving DecidableEq

/-- Nothing where it throws. -/
def confirmFingerprintChange (pins : Pins) (member : MemberKey) : Option PinConfirmation := do
  let identity ← member.identity
  if validKey identity.publicKey then
    some ⟨member.userId, identity.publicKey, pins.set member.userId identity.publicKey⟩
  else none

/-- `comparePins`: the members seen first, and those whose key is not the pinned one. -/
structure PinComparison where
  fresh : List MemberKey
  changed : List PinChange

/-- The key of a member, unless the server shows none. -/
def MemberKey.shownKey (member : MemberKey) : Option JsString :=
  (member.identity.map PublicIdentity.publicKey).filter fun key => key ≠ []

def comparePins (pins : Pins) (members : List MemberKey) : PinComparison where
  fresh := members.filter fun member =>
    (pins.lookup member.userId).isNone && member.shownKey.any validKey
  changed := members.filterMap fun member =>
    match member.shownKey, pins.lookup member.userId with
    | some key, some pinned => if sameKey pinned key then none else some ⟨member, pinned⟩
    | _, _ => none

theorem sameKey_iff {a b : JsString} : sameKey a b = true ↔ ∃ x, publicKeyBytes a = some x ∧ publicKeyBytes b = some x := by
  unfold sameKey
  cases publicKeyBytes a with
  | none => simp
  | some x =>
    cases publicKeyBytes b with
    | none => simp
    | some y => simp [eq_comm]

theorem publicKeyBytes_base64 {x : Bytes} (h : x.length = 32) : publicKeyBytes (base64 x) = some x := by
  unfold publicKeyBytes
  simp [fromBase64_base64, h]

end KyNotes.Web
