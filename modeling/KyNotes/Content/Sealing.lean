import KyNotes.Lib.Aead
import KyNotes.Lib.Check
import KyNotes.Lib.Utf16
import KyNotes.Content.Payload
import KyNotes.Web.Values

/-!
# Content sealing (`internal/notecrypto/notecrypto.go`, `web/src/crypto.ts`)

Go and the web client seal the same content under the same container keys. The primitives, HKDF and AES-GCM, are a
parameter; a subkey of it always has the 32 bytes that `importAES256` asks for. A nonce is drawn by the caller.

A place is what a ciphertext is bound to. Go strings are bytes, strings of JavaScript are code units that `encode` turns
into bytes.
-/

namespace KyNotes.Content

open Check
open Web (JsString)

/-- Container, bound ID and kind. -/
structure Place (σ : Type) where
  container : σ
  bound : σ
  kind : σ
deriving DecidableEq

/-- The same place in other strings. -/
def Place.map {σ τ : Type} (f : σ → τ) (T : Place σ) : Place τ := ⟨f T.container, f T.bound, f T.kind⟩

/-- The bytes of a nonce. -/
def nonceSize : Nat := 12

abbrev Nonce := {n : Bytes // n.length = nonceSize}

/-- The first byte of the v2 form. -/
def version2 : UInt8 := 0x02

variable (A : Aead UInt8)

/-! ## Go -/

namespace Notecrypto

def contentLabel : Bytes := Utf16.utf8 "kynotes/content/v2"

def kindContainerMeta : Bytes := Utf16.utf8 "container-meta"

def minSealed : Nat := nonceSize + 16

def errKey : String := "notecrypto: invalid content key or container ID"

def errBound : String := "notecrypto: invalid bound ID"

def errOpen : String := "notecrypto: unable to decrypt: invalid key, tampered ciphertext or a refused older format"

/-- A prefix and 26 digits, all of them ASCII. -/
def matchString (pre : List Char) (s : Bytes) : Bool := prefixedId idDigit pre (s.map fun b => Char.ofNat b.toNat)

/-- `containerID.MatchString`. -/
def containerID (s : Bytes) : Bool := matchString ['c', 'n', 't', '_'] s

/-- `objectID.MatchString`. -/
def objectID (s : Bytes) : Bool := matchString ['o', 'b', 'j', '_'] s

/-- The subkey of a label. -/
def aead (key container label : Bytes) : Except String A.Key := do
  require (key.length = 32 ∧ containerID container) errKey
  pure (A.hkdf key container label)

/-- `contentAAD`; the length of a field is taken modulo `2 ^ 16`. -/
def contentAAD (T : Place Bytes) : Bytes :=
  [contentLabel, T.container, T.bound, T.kind].flatMap Fields.lengthPrefixed

/-- `checkBound`. -/
def checkBound (T : Place Bytes) : Except String Unit :=
  require (T.kind = kindContainerMeta ∧ T.bound = T.container ∨ T.kind ≠ kindContainerMeta ∧ objectID T.bound) errBound

/-- `sealNonce`. -/
def sealNonce (key : Bytes) (T : Place Bytes) (nonce : Nonce) (plaintext : Bytes) : Except String Bytes := do
  let gcm ← aead A key T.container contentLabel
  checkBound T
  pure (version2 :: (nonce.val ++ A.encrypt gcm nonce (contentAAD T) plaintext))

/-- `openWith`. -/
def openWith (key container label sealed aad : Bytes) : Except String Bytes := do
  let gcm ← aead A key container label
  require (minSealed ≤ sealed.length) errOpen
  fetch (A.decrypt gcm (sealed.take nonceSize) aad (sealed.drop nonceSize)) errOpen

/-- `open`: the plaintext and whether it was a v1 read. -/
def openSealed (key : Bytes) (T : Place Bytes) (label sealed : Bytes) (v1 : Bool) : Except String (Bytes × Bool) := do
  checkBound T
  let legacy := (openWith A key T.container label sealed []).map fun p => (p, true)
  if sealed.head? = some version2 then
    match openWith A key T.container contentLabel sealed.tail (contentAAD T) with
    | .ok p => .ok (p, false)
    | .error e => if v1 then legacy else .error e
  else if v1 then legacy else .error errOpen

end Notecrypto

/-! ## The web client -/

namespace Crypto

def contentV2 : JsString := Utf16.ofText "kynotes/content/v2"

/-- One field; `setUint16` writes its length. -/
def field (f : Bytes) : Except String Bytes := do
  require (f.length ≤ 0xffff) "content ID too long"
  pure (Fields.lengthPrefixed f)

/-- `contentAAD`. -/
def contentAAD (T : Place JsString) : Except String Bytes := do
  require (T.bound ≠ []) "content needs the ID it is bound to"
  let fields ← ([contentV2, T.container, T.bound, T.kind].map Utf16.encode).mapM field
  pure fields.flatten

/-- `deriveObjectKeyBytes`. -/
def deriveObjectKeyBytes (key : Bytes) (containerID info : JsString) : Except String A.Key := do
  require (key.length = 32) "invalid content key"
  pure (A.hkdf key (Utf16.encode containerID) (Utf16.encode info))

/-- `encryptWithKey`: `nonce ‖ ciphertext`, with `aad` the v2 form. -/
def encryptWithKey (key : A.Key) (iv : Nonce) (plaintext : Bytes) (aad : Option Bytes) : Bytes :=
  (if aad.isSome then [version2] else []) ++ (iv.val ++ A.encrypt key iv (aad.getD []) plaintext)

/-- `decryptWithKey`. -/
def decryptWithKey (key : A.Key) (bytes : Bytes) (aad : Option Bytes) : Except String Bytes := do
  let head := if aad.isSome then 1 else 0
  require (head + 28 ≤ bytes.length) "Ciphertext too short"
  fetch (A.decrypt key ((bytes.drop head).take 12) (aad.getD []) (bytes.drop (head + 12)))
    "Unable to decrypt: invalid key or tampered ciphertext"

/-- `sealContent`. -/
def sealContent (key : Bytes) (T : Place JsString) (iv : Nonce) (plaintext : Bytes) : Except String Bytes := do
  let subkey ← deriveObjectKeyBytes A key T.container contentV2
  let aad ← contentAAD T
  pure (encryptWithKey A subkey iv plaintext (some aad))

/-- The `try` of `openContent`. -/
def openV2 (key : Bytes) (T : Place JsString) (bytes : Bytes) : Except String Bytes := do
  let subkey ← deriveObjectKeyBytes A key T.container contentV2
  let aad ← contentAAD T
  decryptWithKey A subkey bytes (some aad)

/-- What `openContent` returns after the `try`. -/
def openV1 (key : Bytes) (T : Place JsString) (v1Label : JsString) (bytes : Bytes) : Except String Bytes := do
  let subkey ← deriveObjectKeyBytes A key T.container v1Label
  decryptWithKey A subkey bytes none

/-- `openContent`: the plaintext and whether it was a v1 read. -/
def openContent (key : Bytes) (T : Place JsString) (v1Label : JsString) (bytes : Bytes) (v1 : Bool) :
    Except String (Bytes × Bool) :=
  let legacy := (openV1 A key T v1Label bytes).map fun p => (p, true)
  if bytes.head? = some version2 then
    match openV2 A key T bytes with
    | .ok p => .ok (p, false)
    | .error e => if v1 then legacy else .error e
  else if v1 then legacy
  else .error "Unable to decrypt: an older format this notebook no longer accepts, or tampered ciphertext"

end Crypto

end KyNotes.Content
