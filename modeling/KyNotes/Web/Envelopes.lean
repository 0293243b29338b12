import KyNotes.Web.Values

/-!
# Envelopes

`teamKeys.ts`: how a key is sealed for a member's device and opened again. The curve, the hash and the sealing of HPKE
are other people's code and stay parameters (`Suite`); what is checked and bound before they run is here.
-/

namespace KyNotes.Web

/-- The cryptography that the client imports; nothing where it throws. -/
structure Suite where
  sha256 : Bytes → Digest
  /-- `x25519.getPublicKey`. -/
  getPublicKey : Bytes → Bytes
  /-- `x25519.getSharedSecret`. -/
  getSharedSecret : (privateKey publicKey : Bytes) → Option Bytes
  hkdfSha256 : (ikm : Bytes) → (length : Nat) → (salt info : Bytes) → Bytes
  /-- `chacha20poly1305(key, nonce, aad).decrypt`. -/
  decrypt : (key nonce aad ciphertext : Bytes) → Option Bytes
  /-- `envelopeSuite.open` for the recipient's private key and the sender's public key. -/
  hpkeOpen : (recipientKey senderPublicKey enc info ciphertext : Bytes) → Option Bytes
  /-- `envelopeSuite.seal`: the encapsulated key and the ciphertext, from the randomness that it draws. -/
  hpkeSeal : (recipientPublicKey senderKey info plaintext ephemeral : Bytes) → Option (Bytes × Bytes)

inductive IdPrefix | cnt | dev | usr | lnk
deriving DecidableEq, Repr

def IdPrefix.text : IdPrefix → JsString
  | .cnt => [99, 110, 116, 95]
  | .dev => [100, 101, 118, 95]
  | .usr => [117, 115, 114, 95]
  | .lnk => [108, 110, 107, 95]

/-- `[0-9a-hjkmnp-tv-z]`. -/
def isIdChar (c : UInt16) : Bool :=
  (48 ≤ c ∧ c ≤ 57) ∨ (97 ≤ c ∧ c ≤ 104) ∨ c = 106 ∨ c = 107 ∨ c = 109 ∨ c = 110 ∨ (112 ≤ c ∧ c ≤ 116) ∨
    (118 ≤ c ∧ c ≤ 122)

/-- `ID`, with the prefix. -/
def isId (p : IdPrefix) (value : JsString) : Bool :=
  value.take 4 = p.text ∧ value.length = 30 ∧ (value.drop 4).all isIdChar

def idBytes (p : IdPrefix) (value : JsString) : Option Bytes :=
  if isId p value then some (value.map UInt16.toUInt8) else none

/-- `new TextDecoder().decode`, where it matters: a byte string that is not ASCII is no identifier. -/
def decodeText (bytes : Bytes) : JsString := bytes.map fun b => if b < 128 then b.toUInt16 else 65533

def ID_BYTES : Nat := 30
def ENVELOPE_BYTES : Nat := 111
def LEGACY_ENVELOPE_BYTES : Nat := 123

/-- A generation as an unsigned 32-bit number. -/
def generationBytes (keyGeneration : Num) : Option Bytes :=
  if isInteger keyGeneration ∧ 1 ≤ keyGeneration ∧ keyGeneration ≤ 4294967295 then
    let n := keyGeneration.num.toNat
    some [UInt8.ofNat (n / 16777216), UInt8.ofNat (n / 65536), UInt8.ofNat (n / 256), UInt8.ofNat n]
  else none

def envelopeContext (label : String) (containerID : JsString) (keyGeneration : Num)
    (recipientDeviceID senderDeviceID : JsString) : Option Bytes := do
  let generation ← generationBytes keyGeneration
  let container ← idBytes .cnt containerID
  let recipient ← idBytes .dev recipientDeviceID
  let sender ← idBytes .dev senderDeviceID
  pure (concat [utf8 label, container, generation, recipient, sender])

def envelopeInfo : JsString → Num → JsString → JsString → Option Bytes := envelopeContext "kynotes/envelope/v3"

/-- The sender's device that an envelope claims; nothing unless format, version and length agree. -/
def envelopeSender (alg : Alg) (envelope : Bytes) : Option JsString :=
  let header : Option (UInt8 × Nat) :=
    match alg with
    | .hpkeAuth => some (3, ENVELOPE_BYTES)
    | .legacy => some (2, LEGACY_ENVELOPE_BYTES)
    | .other => none
  match header with
  | none => none
  | some (version, size) =>
    if envelope.length = size ∧ envelope.head? = some version then
      let sender := decodeText ((envelope.drop 1).take ID_BYTES)
      if isId .dev sender then some sender else none
    else none

variable (S : Suite)

def unwrapLegacyEnvelope (envelope recipientPrivateKey : Bytes) (containerID : JsString) (keyGeneration : Num)
    (recipientDeviceID sender : JsString) (senderPublicKey : Bytes) : Option Bytes := do
  let aad ← envelopeContext "kynotes/envelope/v2" containerID keyGeneration recipientDeviceID sender
  let ephemeralPublic := (envelope.drop 31).take 32
  let nonce := (envelope.drop 63).take 12
  let ephemeral ← S.getSharedSecret recipientPrivateKey ephemeralPublic
  let static ← S.getSharedSecret recipientPrivateKey senderPublicKey
  let salt := concat [ephemeralPublic, S.getPublicKey recipientPrivateKey, senderPublicKey]
  let key := S.hkdfSha256 (concat [ephemeral, static]) 32 salt (utf8 "kynotes/envelope/v2")
  S.decrypt key nonce aad (envelope.drop 75)

/-- Opens an envelope as one of the sender whose public key is given. -/
def unwrapEnvelope (alg : Alg) (envelope recipientPrivateKey : Bytes) (containerID : JsString) (keyGeneration : Num)
    (recipientDeviceID : JsString) (senderPublicKey : Bytes) : Option Bytes := do
  let sender ← envelopeSender alg envelope
  if senderPublicKey.length ≠ 32 then none
  else if alg = .legacy then
    unwrapLegacyEnvelope S envelope recipientPrivateKey containerID keyGeneration recipientDeviceID sender senderPublicKey
  else
    let info ← envelopeInfo containerID keyGeneration recipientDeviceID sender
    S.hpkeOpen recipientPrivateKey senderPublicKey ((envelope.drop 31).take 32) info (envelope.drop 63)

/-- Seals a key for a recipient; `ephemeral` is the randomness of the sealing. -/
def wrapEnvelope (contentKey recipientPublicKey : Bytes) (containerID : JsString) (keyGeneration : Num)
    (recipientDeviceID senderDeviceID : JsString) (senderPrivateKey ephemeral : Bytes) : Option Bytes :=
  if contentKey.length ≠ 32 ∨ recipientPublicKey.length ≠ 32 then none
  else do
    let info ← envelopeInfo containerID keyGeneration recipientDeviceID senderDeviceID
    let (enc, ct) ← S.hpkeSeal recipientPublicKey senderPrivateKey info contentKey ephemeral
    pure (concat [[3], senderDeviceID.map UInt16.toUInt8, enc, ct])

end KyNotes.Web
