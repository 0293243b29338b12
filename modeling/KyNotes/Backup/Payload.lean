import KyNotes.Lib.Split
import KyNotes.Lib.Base64
import KyNotes.Cleanup.System

/-!
# Backups (`internal/backup/payload.go`)

`collect` makes the payload of a backup from the database and the service's configuration, `checks` verifies a restored
directory against the payload's recipe. What they call outside of the repository (SQLite's snapshot, YAML, the recovery
client and its keys, the limits of the capsule library) is a parameter, `Packages`.

The JSON of the recipe and of the blob inventory is kept as the value that it is of: `encoding/json` is exact on these.
A recipe's counts are the entries of its map; a count stays below 2^53, where a JSON number is exact.
-/

namespace KyNotes.Backup

open Relational Check Cleanup

/-- A path, with `/` between its elements. -/
abbrev Path := List Char

/-! ## The database -/

/-- `server_settings`. -/
abbrev Settings := List (String × String)

/-- `SELECT value FROM server_settings WHERE key=?`. -/
def Settings.value (s : Settings) (key : String) : Option String := (s.find? fun x => x.1 = key).map Prod.snd

/-- What a snapshot holds. -/
structure Database where
  db : DB
  slots : Slots
  events : List AuditEvent
  settings : Settings
  /-- Users with `role='admin' AND status='active'`. -/
  admins : Nat

/-- `SELECT count(*)`; `none` if there is no such table. -/
def Database.count (d : Database) (table : String) : Option Nat :=
  match table with
  | "users" => some d.db.keys.users.rows.length
  | "devices" => some d.db.keys.devices.rows.length
  | "key_envelopes" => some d.db.keys.keyEnvelopes.rows.length
  | "containers" => some d.db.keys.containers.rows.length
  | "objects" => some d.db.pages.objects.rows.length
  | "object_versions" => some d.db.pages.objectVersions.rows.length
  | "attachments" => some d.db.pages.attachments.rows.length
  | "blobs" => some d.db.blobs.rows.length
  | "server_settings" => some d.settings.length
  | "audit_events" => some d.events.length
  | "cleanup_audit_slots" => some d.slots.rows.length
  | _ => none

/-- `Blob`. -/
structure BlobEntry where
  digest : Digest
  size : Nat
deriving DecidableEq

/-- `SELECT digest,size_bytes FROM blobs ORDER BY digest`. -/
def Database.inventory (d : Database) : List BlobEntry :=
  (d.db.blobs.rows.mergeSort fun a b => a.digest ≤ b.digest).map fun b => ⟨b.digest, b.sizeBytes⟩

/-! ## Outside of the repository -/

/-- The limits of `capsule`, the snapshots, the configuration and the keys. -/
structure Packages where
  maxFileBytes : Nat
  maxExpandedBytes : Nat
  /-- `recoveryclient.SQLiteSnapshot`. -/
  sqliteSnapshot : Database → Bytes
  /-- Opening a file and its `PRAGMA integrity_check`. -/
  openDatabase : Bytes → Option Database
  Config : Type
  pairingSecret : Config → Bytes
  serverSaltKey : Config → Bytes
  yamlMarshal : Config → Bytes
  yamlUnmarshal : Bytes → Option Config
  PublicKey : Type
  publicBytes : PublicKey → Bytes
  parsePublicKey : Bytes → Option PublicKey
  keyID : PublicKey → String
  /-- `recoveryclient.LoadRecoveryKey`. -/
  loadRecoveryKey : Settings → Option PublicKey
  /-- `NewAESGCMSealer(serverSaltKey, TokenLabel)` and its `Open`. -/
  openToken : Bytes → String → Option Bytes

/-! ## Payloads -/

/-- What a file holds: bytes, or the JSON of an inventory. -/
inductive Data
  | bytes (b : Bytes)
  | inventory (entries : List BlobEntry)
deriving DecidableEq

/-- The bytes of an inventory's JSON: `{"digest":"","size_bytes":}` around the digest in hexadecimal and the size. -/
def inventoryBytes (entries : List BlobEntry) : Nat :=
  2 + (entries.length - 1) + (entries.map fun b => 27 + 2 * b.digest.length + (Nat.toDigits 10 b.size).length).sum

def Data.size : Data → Nat
  | .bytes b => b.length
  | .inventory entries => inventoryBytes entries

/-- `recoveryclient.File`, and a regular file of a directory. -/
structure File where
  path : Path
  data : Data
  mode : Nat
deriving DecidableEq

/-- `Recipe`. -/
structure Recipe where
  version : Int
  requiredFiles : List Path
  sqlitePaths : List Path
  counts : List (String × Int)
deriving DecidableEq

def Recipe.want (r : Recipe) (table : String) : Option Int := (r.counts.find? fun x => x.1 = table).map Prod.snd

/-- `recoveryclient.Payload`: its files and its recipe. -/
structure Payload where
  files : List File
  recipe : Recipe

/-- `members[0]`. -/
def sqliteMember : Path := "kynotes.sqlite".toList

def pairingMember : Path := "secrets/pairing.key".toList

def saltMember : Path := "secrets/serversalt.key".toList

def pinMember : Path := "recovery.pub".toList

def configMember : Path := "kynotes.yaml".toList

def inventoryMember : Path := "blob-inventory.json".toList

def vapidMember : Path := "secrets/vapid.key".toList

/-- `members[1:]`. -/
def otherMembers : List Path := [pairingMember, saltMember, pinMember, configMember, inventoryMember]

def tables : List String :=
  ["users", "devices", "key_envelopes", "containers", "objects", "object_versions", "attachments", "blobs",
    "server_settings"]

def auditTables : List String := ["audit_events", "cleanup_audit_slots"]

/-- `%03d`. -/
def pad3 (n : Nat) : List Char :=
  if n < 1000 then [Nat.digitChar (n / 100), Nat.digitChar (n / 10 % 10), Nat.digitChar (n % 10)] else Nat.toDigits 10 n

def partName (i : Nat) : Path := sqliteMember ++ '.' :: pad3 i

/-- `partNames`. -/
def partNames (n : Nat) : List Path := (List.range n).map partName

/-- `base64.StdEncoding.EncodeToString`. -/
def encodeToString (b : Bytes) : Bytes := (Base64.encode b).map fun u => UInt8.ofNat u.toNat

/-- `base64.StdEncoding.DecodeString`: CR and LF are ignored, padding is not optional. -/
def decodeString (raw : Bytes) : Option Bytes :=
  let s := (raw.filter fun b => b ≠ 10 ∧ b ≠ 13).map fun b => UInt16.ofNat b.toNat
  if s.length % 4 = 0 ∧ s.all fun c => !Base64.isSpace c then Base64.decode s else none

variable (P : Packages)

/-- `readSnapshot`, of the file's bytes. -/
def readSnapshot (data : Bytes) : Except String (List Bytes) := do
  require (data.length ≤ P.maxExpandedBytes) "database exceeds the capsule container limit"
  require (data ≠ []) "database snapshot empty"
  pure (Split.parts P.maxFileBytes data)

/-- The service: its configuration, and `secrets/vapid.key` of the data directory. -/
structure Service where
  cfg : P.Config
  vapid : Option Bytes

/-- `readMember`, of `secrets/vapid.key`; `none` if there is no such file. -/
def readVapid : Option Bytes → Except String (Option Bytes)
  | none => pure none
  | some data => do
    require (data ≠ [] ∧ data.length ≤ P.maxFileBytes) "capsule member empty or exceeds library size limit"
    pure (some data)

/-- `counts[table]` for the tables that are there. -/
def countTables (d : Database) (names : List String) : List (String × Int) :=
  names.filterMap fun t => (d.count t).map fun n => (t, (n : Int))

/-- The files beside the snapshot, in the order of `otherMembers`. -/
def memberData (cfg : P.Config) (key : P.PublicKey) (d : Database) : List Data :=
  [.bytes (encodeToString (P.pairingSecret cfg)), .bytes (encodeToString (P.serverSaltKey cfg)),
    .bytes (P.publicBytes key), .bytes (P.yamlMarshal cfg), .inventory d.inventory]

/-- Files of mode `0600`. -/
def privateFiles (paths : List Path) (data : List Data) : List File := List.zipWith (fun p d => ⟨p, d, 0o600⟩) paths data

/-- The paths of the snapshot's parts. -/
def sqlitePathsOf (parts : List Bytes) : List Path := if 1 < parts.length then partNames parts.length else [sqliteMember]

/-- The files and the recipe of a snapshot. -/
def payload (cfg : P.Config) (key : P.PublicKey) (parts : List Bytes) (vapid : Option Bytes) (snap : Database) : Payload where
  files := privateFiles (sqlitePathsOf parts) (parts.map .bytes) ++ privateFiles otherMembers (memberData P cfg key snap) ++
    privateFiles [vapidMember] (vapid.toList.map .bytes)
  recipe := {
    version := 1
    requiredFiles := sqlitePathsOf parts ++ otherMembers ++ vapid.toList.map fun _ => vapidMember
    sqlitePaths := sqlitePathsOf parts
    counts := countTables snap tables ++ countTables snap auditTables }

/-- `Collect`. -/
def collect (svc : Service P) (live : Database) : Except String Payload := do
  require (32 ≤ (P.pairingSecret svc.cfg).length ∧ 32 ≤ (P.serverSaltKey svc.cfg).length) "deployment secrets missing"
  let key ← fetch (P.loadRecoveryKey live.settings) "recovery key"
  let snapshot := P.sqliteSnapshot live
  let parts ← readSnapshot P snapshot
  let snap ← fetch (P.openDatabase snapshot) "snapshot"
  require (∀ x ∈ memberData P svc.cfg key snap, x.size ≤ P.maxFileBytes) "capsule member exceeds library size limit"
  let vapid ← readVapid P svc.vapid
  pure (payload P svc.cfg key parts vapid snap)

/-! ## Verification -/

/-- `sqlitePathsValid`. -/
def sqlitePathsValid (paths : List Path) : Bool :=
  paths = [sqliteMember] ∨ (1 < paths.length ∧ paths.length ≤ 1000 ∧ paths = partNames paths.length)

/-- `filepath.IsLocal(path) && filepath.Clean(path) == path`. -/
def localPath (path : Path) : Bool :=
  path = ['.'] ∨ (path.splitOn '/').all fun x => x ≠ [] ∧ x ≠ ['.'] ∧ x ≠ ['.', '.']

/-- The file of a path. -/
def stat (dir : List File) (path : Path) : Option File := dir.find? fun f => f.path = path

/-- `ReadFile`, of bytes. -/
def readFile (dir : List File) (path : Path) : Option Bytes :=
  match (stat dir path).map File.data with
  | some (.bytes b) => some b
  | _ => none

/-- `ReadFile` and `json.Unmarshal` into an inventory. -/
def readInventory (dir : List File) (path : Path) : Option (List BlobEntry) :=
  match (stat dir path).map File.data with
  | some (.inventory entries) => some entries
  | _ => none

/-- `joinParts`. -/
def joinParts (dir : List File) (parts : List Path) : Option (List File) := do
  guard (stat dir sqliteMember = none)
  let data ← parts.mapM (readFile dir)
  pure (⟨sqliteMember, .bytes data.flatten, 0o600⟩ :: dir.filter fun f => f.path ∉ parts)

/-- The checks of the recipe. -/
def checkRecipe (recipe : Recipe) : Except String Unit := do
  require (recipe.version = 1 ∧ sqlitePathsValid recipe.sqlitePaths ∧ tables.length ≤ recipe.counts.length ∧
    recipe.counts.length ≤ tables.length + 2) "missing or malformed required recipe"
  require (∀ x ∈ recipe.counts, x.1 ∈ tables ∨ x.1 ∈ auditTables) "unknown table count"
  let want := recipe.sqlitePaths ++ otherMembers
  require (recipe.requiredFiles = want ∨ recipe.requiredFiles = want ++ [vapidMember])
    "missing or malformed required recipe"

/-- The checks of one required file. -/
def checkMember (dir : List File) (path : Path) : Except String Unit := do
  require (localPath path) "unsafe member path"
  let f ← fetch (stat dir path) "required private member missing or unsafe"
  require (f.data.size ≠ 0 ∧ f.mode &&& 0o077 = 0) "required private member missing or unsafe"

/-- A secret file holds the configured secret. -/
def checkSecret (dir : List File) (path : Path) (want : Bytes) : Except String Unit := do
  let raw ← fetch (readFile dir path) "secret file missing"
  require (decodeString raw = some want) "effective deployment secrets mismatch"

/-- The configuration, with the deployment secrets in it. -/
def checkConfig (dir : List File) : Except String P.Config := do
  let raw ← fetch (readFile dir configMember) "configuration missing"
  let cfg ← fetch (P.yamlUnmarshal raw) "deployment secrets invalid"
  require (32 ≤ (P.pairingSecret cfg).length ∧ 32 ≤ (P.serverSaltKey cfg).length) "deployment secrets invalid"
  checkSecret dir pairingMember (P.pairingSecret cfg)
  checkSecret dir saltMember (P.serverSaltKey cfg)
  pure cfg

def checkCount (d : Database) (recipe : Recipe) (table : String) : Except String Unit := do
  let want ← fetch (recipe.want table) "required table count missing"
  require (0 ≤ want) "required table count missing"
  require ((d.count table).map Int.ofNat = some want) "restored table count mismatch"

/-- The count of a table that older recipes do not list. -/
def checkAuditCount (d : Database) (recipe : Recipe) (table : String) : Except String Unit :=
  match recipe.want table with
  | none => pure ()
  | some want =>
    require (0 ≤ want ∧ (d.count table).map Int.ofNat = some want) "restored audit metadata count mismatch"

/-- `audit_events` and `cleanup_audit_slots`. -/
def checkAudit (d : Database) (recipe : Recipe) : Except String Unit := do
  require ((recipe.want "audit_events").isSome ∨ (recipe.want "cleanup_audit_slots").isNone) "ordinary audit count missing"
  checkAuditCount d recipe "audit_events"
  require ((d.count "cleanup_audit_slots").isNone ∨ (recipe.want "cleanup_audit_slots").isSome)
    "cleanup audit count missing"
  checkAuditCount d recipe "cleanup_audit_slots"
  require ((d.count "cleanup_audit_slots").isNone ∨ verifyCleanupReservations d.db d.slots) "cleanup reservations invalid"

/-- The restored pin is the restored key's, and the token of the pairing opens under the restored secrets. -/
def checkPin (cfg : P.Config) (pub : P.PublicKey) (d : Database) : Except String Unit := do
  require (d.settings.value "kyrecovery_key_id" = some (P.keyID pub)) "restored pin mismatch"
  let encrypted := (d.settings.value "kyrecovery_token_enc").getD ""
  require (encrypted = "" ∨ (P.openToken (P.serverSaltKey cfg) encrypted).isSome) "restored pairing token cannot open"

def checkInventory (dir : List File) (recipe : Recipe) (d : Database) : Except String Unit := do
  let inventory ← fetch (readInventory dir inventoryMember) "blob inventory missing"
  require (some (inventory.length : Int) = recipe.want "blobs") "blob inventory count mismatch"
  require (d.inventory = inventory) "blob inventory mismatch"

/-- The message of the passed check, with a note if no administrator is left. -/
def passed (d : Database) : String :=
  "database, 9 tables, secrets, pin and blob inventory verified; blob bytes require separate recovery" ++
    if d.admins = 0 then
      "; no active administrator: after restoring, create one with kynotes-server user add --admin"
    else ""

/-- `Checks`: the message of the passed check, or of the failed one. -/
def checks (dir : List File) (recipe : Recipe) : Except String String := do
  checkRecipe recipe
  forEach (fun _ => checkMember dir) () recipe.requiredFiles
  let dir ← fetch (if 1 < recipe.sqlitePaths.length then joinParts dir recipe.sqlitePaths else some dir)
    "database members could not be reassembled"
  let cfg ← checkConfig P dir
  let pubBytes ← fetch (readFile dir pinMember) "recovery pin missing"
  let pub ← fetch (P.parsePublicKey pubBytes) "invalid recovery pin"
  let file ← fetch (readFile dir sqliteMember) "database integrity failed"
  let d ← fetch (P.openDatabase file) "database integrity failed"
  forEach (fun _ => checkCount d recipe) () tables
  checkAudit d recipe
  checkPin P cfg pub d
  checkInventory dir recipe d
  pure (passed d)

end KyNotes.Backup
