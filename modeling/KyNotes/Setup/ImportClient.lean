import KyNotes.Cleanup.SlotText
import KyNotes.Lib.Base64
import KyNotes.Lib.EventLoop

/-!
# The import of a client (`internal/applysetup/import.go`)

`ImportClient` copies the credentials of one transfer into the files that the prepared bundle reserves for them: first the
receipt, which pins the transfer, then the client secret and, where it is selected, the directory secret. Each file
operation of a call is a step of its own, and may fail; between two of them any other call may run, and a call that is
stopped takes no further step. The log is not in the source: it has every publication, every failure of an operation and
every answer, with the call.

The decoders of JSON, `url.Parse` and SHA-256 are parameters (`Prepared`); so is the outcome of `Stage`, which only reads
when it checks.
-/

namespace KyNotes.Setup

open EventLoop Check Cleanup.Stored

def maxBundleBytes : ℕ := 64 * 1024

/-! ## Frames and bundles -/

structure Administrator where
  subject : String
  username : String
  role : String
deriving DecidableEq

/-- `clientCredentials`, as the decoder makes it: its strings are UTF-8. -/
structure ClientCredentials where
  schema : String
  setupID : String
  issuerURL : String
  clientID : String
  redirectURIs : List String
  directoryURL : String := ""
  clientSecret : String
  directorySecret : String := ""
  administrator : Administrator
deriving DecidableEq

/-- `SSO` of a `bundle`. -/
structure BundleSSO where
  issuerURL : String
  clientID : String
  clientSecretFile : String
  redirectURI : String
  directoryHMACSecretFile : String := ""

structure Admin where
  issuer : String
  subject : String
  username : String

structure Bundle where
  sso : Option BundleSSO
  admins : List Admin

/-- What is used of a `url.URL`. -/
structure URL where
  scheme : String
  hostname : String
  host : String
  user : Bool
  fragment : String

/-- A SHA-256. -/
structure Sum256 where
  bytes : Bytes
  length_eq : bytes.length = 32

/-- The prepared bundle, its directory, and the functions of other packages. -/
structure Prepared where
  dir : String
  metadata : Bytes
  /-- `decodeStrict` of a frame. -/
  decodeFrame : Bytes → Option ClientCredentials
  /-- `decodeStrict` of a bundle. -/
  decodeBundle : Bytes → Option Bundle
  parseURL : String → Option URL
  sha256 : Bytes → Sum256

/-! ## `json.Marshal` -/

def marshal (t : JsonText.Tree) : Bytes := Utf8.encode (t.print.map Char.ofNat)

def jsonText (s : String) : List JsonText.Item := s.toList.map fun c => jsonItem (some c)

def member (key value : String) : List JsonText.Item × JsonText.Tree := (jsonText key, .str (jsonText value))

/-- A member with `omitempty`. -/
def optional (key value : String) : List (List JsonText.Item × JsonText.Tree) :=
  if value = "" then [] else [member key value]

def Administrator.tree (a : Administrator) : JsonText.Tree :=
  .obj [member "subject" a.subject, member "username" a.username, member "role" a.role]

def ClientCredentials.tree (frame : ClientCredentials) : JsonText.Tree :=
  .obj (member "schema" frame.schema :: member "setupId" frame.setupID :: member "issuerUrl" frame.issuerURL ::
    member "clientId" frame.clientID ::
    (jsonText "redirectUris", .arr (frame.redirectURIs.map fun uri => .str (jsonText uri))) ::
    (optional "directoryUrl" frame.directoryURL ++ member "clientSecret" frame.clientSecret ::
      (optional "directorySecret" frame.directorySecret ++ [(jsonText "administrator", frame.administrator.tree)])))

/-- `hex.EncodeToString`. -/
def hexString (bytes : Bytes) : String :=
  String.ofList (bytes.flatMap fun b =>
    [Char.ofNat (JsonText.hexDigit (b.toNat / 16)), Char.ofNat (JsonText.hexDigit (b.toNat % 16))])

def receiptTree (clientDigest bundleDigest : Sum256) : JsonText.Tree :=
  .obj [member "schema" "kynotes.client-import/1", member "clientDigest" (hexString clientDigest.bytes),
    member "bundleDigest" (hexString bundleDigest.bytes)]

/-! ## Secrets -/

def urlChar (n : ℕ) : UInt16 := if n = 62 then 45 else if n = 63 then 95 else Base64.char n

def urlDigit (c : UInt16) : Option ℕ :=
  if c = 45 then some 62 else if c = 95 then some 63 else if c = 43 ∨ c = 47 then none else Base64.digit c

/-- `base64.RawURLEncoding.EncodeToString`. -/
def rawURLEncode (bytes : Bytes) : List UInt16 := (Base64.toDigits bytes).map urlChar

/-- `base64.RawURLEncoding.Strict().DecodeString`: it drops line ends, and wants zeros below the last byte. -/
def rawURLDecode (s : List UInt16) : Option Bytes := do
  let digits ← (s.filter fun c => !(c == 10 || c == 13)).mapM urlDigit
  if digits.length % 4 ≠ 1 ∧ Base64.toDigits (Base64.ofDigits digits) = digits then some (Base64.ofDigits digits) else none

def value (s : String) : Bytes := Utf8.encode s.toList

def importSecret (s : String) : Bool :=
  let units := (value s).map UInt8.toUInt16
  match rawURLDecode units with
  | some raw => raw.length = 32 ∧ rawURLEncode raw = units
  | none => false

def isHex (c : Char) : Bool := '0' ≤ c ∧ c ≤ '9' ∨ 'a' ≤ c ∧ c ≤ 'f'

/-- `importSetupID.MatchString`. -/
def importSetupID (s : String) : Bool :=
  let parts := s.toList.splitOn '-'
  parts.map List.length = [8, 4, 4, 4, 12] ∧ parts.all fun part => part.all isHex

/-! ## What is checked without the files -/

namespace Prepared

variable (P : Prepared)

/-- `filepath.Join` of the directory and a name. -/
def join (name : String) : String := P.dir ++ "/" ++ name

def receiptFile : String := P.join "client-import.json"

/-- The frame of a call. -/
def readFrame (raw : Bytes) : Except String ClientCredentials := do
  require (raw.length ≤ maxBundleBytes) "private client frame exceeds its limit"
  let frame ← fetch (P.decodeFrame raw) "invalid private client frame"
  require (frame.schema = "kyidentity.client-credentials/1" ∧ importSetupID frame.setupID) "invalid private client frame"
  pure frame

/-- The loop over `frame.RedirectURIs`. -/
def callbacks (redirectURI : String) : List String → Bool → Except String Bool
  | [], callback => pure callback
  | uri :: uris, callback =>
    match P.parseURL uri with
    | none => throw "invalid client callback"
    | some u =>
      if u.scheme ≠ "https" ∨ u.hostname = "" ∨ u.user ∨ u.fragment ≠ "" ∨ 2048 < uri.utf8ByteSize then
        throw "invalid client callback"
      else callbacks redirectURI uris (callback || uri = redirectURI)

/-- The credential files of the frame, with their values, after all that `ImportClient` checks of it. -/
def matchFrame (frame : ClientCredentials) : Except String (List (String × Bytes)) :=
  match P.decodeBundle P.metadata with
  | some ⟨some s, [owner]⟩ => do
    require (frame.issuerURL = s.issuerURL ∧ frame.clientID = s.clientID ∧ frame.administrator.role = "kynotes.admin" ∧
      owner.issuer = frame.issuerURL ∧ owner.subject = frame.administrator.subject ∧
      owner.username = frame.administrator.username)
      "client import does not match the prepared issuer, client or owner grant"
    require (frame.redirectURIs.length ≠ 0 ∧ frame.redirectURIs.length ≤ 16) "invalid client callback list"
    let callback ← P.callbacks s.redirectURI frame.redirectURIs false
    require (callback ∧ importSecret frame.clientSecret) "client import callback or credential does not match"
    require (s.clientSecretFile = P.join "client.secret") "client import requires its reserved credential path"
    if s.directoryHMACSecretFile ≠ "" then do
      let u ← fetch (P.parseURL s.redirectURI) "runtime error: invalid memory address or nil pointer dereference"
      require (s.directoryHMACSecretFile = P.join "directory.secret" ∧
        frame.directoryURL = "https://" ++ u.host ++ "/api/v1/sync/events" ∧ importSecret frame.directorySecret)
        "client import directory endpoint or credential does not match"
      pure [(s.clientSecretFile, value frame.clientSecret), (s.directoryHMACSecretFile, value frame.directorySecret)]
    else do
      require (frame.directoryURL = "" ∧ frame.directorySecret = "") "client import has an unselected directory connection"
      pure [(s.clientSecretFile, value frame.clientSecret)]
  | _ => throw "client import requires SSO and one dedicated owner grant"

/-- `canonical`. -/
def canonical (frame : ClientCredentials) : Bytes := marshal frame.tree

def receipt (frame : ClientCredentials) : Bytes :=
  marshal (receiptTree (P.sha256 (canonical frame)) (P.sha256 P.metadata))

end Prepared

/-! ## The files -/

/-- The arguments that differ between calls. -/
structure Call where
  raw : Bytes
  check : Bool
deriving DecidableEq

inductive Event
  | published (c : Call) (path : String) (value : Bytes)
  | failed (c : Call)
  | answered (c : Call) (result : Except String String)

structure Disk where
  files : String → Option Bytes
  log : List Event := []

/-- The operations of a call outside of its own memory. -/
inductive Op
  | readBundle
  | stage
  | lstat (path : String)
  | read (path : String)
  | store (path : String) (value : Bytes)
deriving DecidableEq

/-- `keyfile.Store` may fail also after the publication. -/
@[reducible] def Op.Val : Op → Type
  | .store _ _ => Bool
  | _ => Unit

abbrev Io := Async Disk String Op Op.Val

namespace Disk

/-- A file is published where there is none. -/
def publish (d : Disk) (c : Call) (path : String) (value : Bytes) : Disk :=
  match d.files path with
  | some _ => d
  | none => ⟨fun p => if p = path then some value else d.files p, d.log ++ [.published c path value]⟩

def record (d : Disk) (e : Event) : Disk := { d with log := d.log ++ [e] }

end Disk

section Calls

variable (c : Call)

def record (e : Event) : Io Unit := Async.update fun d => d.record e

def io (op : Op) : Io op.Val := do
  match ← Async.attempt (Async.call op) with
  | .ok v => pure v
  | .error e => do
    record (.failed c)
    Async.fail e

/-- `errors.Is(err, os.ErrNotExist)` of `os.Lstat`. -/
def lstatMissing (path : String) : Io Bool := do
  match ← Async.attempt (io c (.lstat path)) with
  | .ok _ => Async.read fun d => (d.files path).isNone
  | .error _ => pure false

def readCapped (path : String) : Io Bytes := do
  let _ ← io c (.read path)
  let content ← Async.read fun d => d.files path
  match content with
  | none => Async.fail "cannot open protected setup file"
  | some raw => if maxBundleBytes < raw.length then Async.fail "larger than 65536 bytes" else pure raw

def importFilePresent (file : String) (expected : Bytes) : Io Bool := do
  let missing ← lstatMissing c file
  if missing then pure false
  else do
    match ← Async.attempt (readCapped c file) with
    | .error _ => Async.fail "client import file is unsafe or differs; existing files are preserved"
    | .ok retained =>
      if retained = expected then pure true
      else Async.fail "client import file is unsafe or differs; existing files are preserved"

/-- The outcome of `keyfile.Store`. -/
inductive Stored
  | stored
  | exists
  | failed

def keyfileStore (file : String) (value : Bytes) : Io Stored := do
  match ← Async.attempt (io c (.store file value)) with
  | .error _ => pure .failed
  | .ok whole => do
    let present ← Async.exchange (fun d => d.publish c file value) fun d => (d.files file).isSome
    if present then pure .exists
    else if whole then pure .stored
    else do
      record (.failed c)
      pure .failed

def publishImportFile (file : String) (value : Bytes) : Io Unit := do
  match ← keyfileStore c file value with
  | .stored => pure ()
  | .failed => Async.fail "cannot publish protected client import file"
  | .exists => do
    match ← Async.attempt (importFilePresent c file value) with
    | .ok true => pure ()
    | _ => Async.fail "client import publication was not retained"

/-- The first loop over the files: those that are missing. -/
def missingFiles (retained : Bool) : List (String × Bytes) → Io (List (String × Bytes))
  | [] => pure []
  | f :: files => do
    match ← Async.attempt (importFilePresent c f.1 f.2) with
    | .error _ => Async.fail "client import refuses changed, unsafe or unowned credentials"
    | .ok present =>
      if present ∧ !retained then Async.fail "client import refuses changed, unsafe or unowned credentials"
      else do
        let missing ← missingFiles retained files
        pure (if present then missing else f :: missing)

def publishFiles : List (String × Bytes) → Io Unit
  | [] => pure ()
  | f :: files => do
    publishImportFile c f.1 f.2
    publishFiles files

def unlessDone (done : Bool) (x : Io Unit) : Io Unit := if done then pure () else x

/-- What `ImportClient` does with the files. -/
def importFiles (P : Prepared) (frame : ClientCredentials) (files : List (String × Bytes)) : Io String := do
  let retained ← importFilePresent c P.receiptFile (P.receipt frame)
  let missing ← missingFiles c retained files
  if c.check then
    if !retained ∨ missing ≠ [] then Async.fail "client import is not present" else pure "present"
  else do
    unlessDone retained (publishImportFile c P.receiptFile (P.receipt frame))
    publishFiles c missing
    pure (if !retained ∨ missing ≠ [] then "created" else "present")

def importClient (P : Prepared) : Io String := do
  let frame ← Async.ofExcept (P.readFrame c.raw)
  match ← Async.attempt (io c .readBundle) with
  | .error _ => Async.fail "client import requires a retained protected bundle"
  | .ok _ => do
    let _ ← io c .stage
    let files ← Async.ofExcept (P.matchFrame frame)
    importFiles c P frame files

/-- A call, with its answer in the log. -/
def Prepared.call (P : Prepared) (c : Call) : Io Unit := do
  let result ← Async.attempt (importClient c P)
  record (.answered c result)

end Calls

/-- The files and the calls that run. -/
abbrev World := Loop Disk Op fun op => Except String op.Val

/-- Any calls, each of them taking its steps among those of the others. -/
def Prepared.run (P : Prepared) (files : String → Option Bytes)
    (inputs : List (Input Call Op fun op => Except String op.Val)) : World :=
  Transition.run (Loop.step fun c => (P.call c).detach) ⟨⟨files, []⟩, []⟩ inputs

end KyNotes.Setup
