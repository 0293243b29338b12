import KyNotes.Server.Schema
import KyNotes.Lib.Program

/-!
# Blob recovery (`internal/mirror`, `internal/blobstore`)

`Fetch` with the functions of the blob store that it calls. The store is the files under `blobs`, by name. Each operation of
the file system, the target, the database and the context is a request, and any answer may come; a file that is there is read
as it is, or the read fails. The state also has the changes of the files in their order.
-/

namespace KyNotes.Mirror

open Interaction

/-- `Object`. -/
structure Blob where
  digest : String
  size : ℤ
deriving DecidableEq

/-- The rows of `blobs`, whose key is the digest. -/
structure Inventory where
  rows : List Blob
  key : (rows.map Blob.digest).Nodup

/-- `Stats`, of what `Fetch` counts. -/
structure Stats where
  skipped : ℕ := 0
  failed : ℕ := 0
  fetched : ℕ := 0
  missing : ℕ := 0
  firstError : String := ""
deriving DecidableEq

/-- The errors that are told apart. -/
inductive Err
  /-- `os.ErrNotExist`. -/
  | notExist
  /-- `blobstore.ErrCorruptBlob`. -/
  | corrupt
  /-- `blobstore.ErrDigestMismatch`. -/
  | mismatch
  /-- `ErrIncomplete`. -/
  | incomplete
  | other
deriving DecidableEq

inductive Req
  | list
  | context
  | openFile (d : String)
  | readFile (d : String)
  | stat (d : String)
  | remove (d : String)
  | get (name : String)
  | newTemp
  | copy (limit : ℕ)
  | close
  | sync
  | mkdir (d : String)
  | rename (d : String)
  | openDir (d : String)
  | syncDir (d : String)
deriving DecidableEq

/-- A copy from the target gives bytes. -/
@[reducible] def Val : Req → Type
  | .copy _ => Bytes
  | _ => Unit

inductive Change
  | removed (d : String) (content : Bytes)
  | installed (d : String) (content : Bytes)

structure Store where
  files : String → Option Bytes
  changes : List Change := []

namespace Store

def remove (s : Store) (d : String) : Store :=
  match s.files d with
  | none => s
  | some content => ⟨fun d' => if d' = d then none else s.files d', s.changes ++ [.removed d content]⟩

/-- What `os.Rename` puts there, in the place of what was there. -/
def install (s : Store) (d : String) (content : Bytes) : Store :=
  ⟨fun d' => if d' = d then some content else s.files d', s.changes ++ [.installed d content]⟩

end Store

abbrev Run := Action Store Err Req Val

def request (op : Req) : Run (Val op) := Action.call op

/-- An operation of which no failure is one that is told apart. -/
def localOp (op : Req) : Run (Val op) := do
  match ← Action.attempt (request op) with
  | .ok v => pure v
  | .error _ => Action.fail .other

def isLowerHex (c : Char) : Bool := '0' ≤ c ∧ c ≤ '9' ∨ 'a' ≤ c ∧ c ≤ 'f'

def isHex (c : Char) : Bool := isLowerHex c ∨ 'A' ≤ c ∧ c ≤ 'F'

/-- `len(d) == 64`, and `hex.DecodeString` succeeds. -/
def isName (d : String) : Bool := d.toList.length = 64 ∧ d.toList.all isHex

section Blobs

-- `hex.EncodeToString` of the SHA-256
variable (sha256 : Bytes → String)

/-- `Open`, closed again; what is returned is the size. -/
def openBlob (d : String) : Run ℕ :=
  if !isName d then Action.fail .notExist
  else do
    localOp (.openFile d)
    match ← Action.read fun s => s.files d with
    | none => Action.fail .notExist
    | some content => do
      localOp (.readFile d)
      if sha256 content ≠ d then Action.fail .corrupt else pure content.length

/-- `Stat`. -/
def statBlob (d : String) : Run (Option ℕ) :=
  if !isName d then pure none
  else do
    localOp (.stat d)
    Action.read fun s => (s.files d).map List.length

/-- `Delete`. -/
def deleteBlob (d : String) : Run Unit :=
  if !isName d then Action.fail .other
  else do
    localOp (.remove d)
    Action.modify fun s => s.remove d

/-- The rename at the end of `Finalize`. -/
def install (d : String) (data : Bytes) : Run (String × ℕ) := do
  localOp (.rename d)
  Action.modify fun s => s.install d data
  match ← Action.attempt (localOp (.openDir d)) with
  | .ok _ => do
    localOp (.syncDir d)
    pure (d, data.length)
  | .error _ => pure (d, data.length)

/-- `Finalize` of a temporary file with these bytes. -/
def finalize (data : Bytes) (expected : String) : Run (String × ℕ) := do
  localOp .sync
  let d := sha256 data
  if expected ≠ "" ∧ expected ≠ d then Action.fail .mismatch
  else do
    localOp (.mkdir d)
    match ← Action.attempt (localOp (.stat d)) with
    | .error _ => install d data
    | .ok _ => do
      match ← Action.read fun s => s.files d with
      | none => install d data
      | some content =>
        if content.length ≠ data.length then Action.fail .corrupt
        else do
          match ← Action.attempt (openBlob sha256 d) with
          | .error _ => Action.fail .corrupt
          | .ok _ => pure (d, data.length)

/-! ## `Fetch` -/

/-- `valid`. -/
def valid (b : Blob) : Bool := b.digest.toList.length = 64 ∧ b.digest.toList.all isLowerHex ∧ 0 ≤ b.size ∧ b.size < 2 ^ 63 - 1

/-- The bytes of the object, at most one more than its size. -/
def receive (b : Blob) : Run Bytes := do
  request (.get ("blobs/" ++ b.digest))
  request .newTemp
  let limit := b.size.toNat + 1
  let copied : Except Err Bytes ← Action.attempt (request (.copy limit))
  let closed ← Action.attempt (request .close)
  match copied, closed with
  | .error e, _ => Action.fail e
  | .ok _, .error e => Action.fail e
  | .ok bytes, .ok _ => pure (bytes.take limit)

/-- Removes the file of the blob when it is corrupt. -/
def clear (b : Blob) : Run Unit := do
  match ← statBlob b.digest with
  | none => pure ()
  | some _ => do
    match ← Action.attempt (openBlob sha256 b.digest) with
    | .ok _ => pure ()
    | .error e => if e = .corrupt then deleteBlob b.digest else Action.fail e

/-- `fetch`. -/
def fetch (b : Blob) : Run Unit := do
  let data ← receive b
  if (data.length : ℤ) ≠ b.size ∨ sha256 data ≠ b.digest then Action.fail .mismatch
  else do
    clear sha256 b
    let _ ← finalize sha256 data b.digest
    pure ()

/-- `failure`. -/
def Stats.failure (s : Stats) (code : String) (missing : Bool) : Stats :=
  { s with
    failed := s.failed + 1
    missing := if missing then s.missing + 1 else s.missing
    firstError := if s.firstError = "" then code else s.firstError }

/-- `err`. -/
def Stats.err (s : Stats) : Option Err := if 0 < s.failed ∨ 0 < s.missing then some .incomplete else none

/-- `fetch`, counted. -/
def repair (b : Blob) (stats : Stats) : Run Stats := do
  match ← Action.attempt (fetch sha256 b) with
  | .error e => pure (stats.failure "fetch_or_digest_failed" (e = .notExist))
  | .ok _ => pure { stats with fetched := stats.fetched + 1 }

/-- One row of the inventory. -/
def fetchRow (b : Blob) (stats : Stats) : Run Stats :=
  if !valid b then pure (stats.failure "invalid_inventory" false)
  else do
    match ← Action.attempt (openBlob sha256 b.digest) with
    | .ok size =>
      if (size : ℤ) = b.size then pure { stats with skipped := stats.skipped + 1 } else repair sha256 b stats
    | .error e =>
      if e ≠ .notExist ∧ e ≠ .corrupt then pure (stats.failure "local_read_failed" false) else repair sha256 b stats

def fetchRows : List Blob → Stats → Run (Stats × Option Err)
  | [], stats => pure (stats, stats.err)
  | b :: rows, stats => do
    match ← Action.attempt (request .context) with
    | .error e => pure (stats, some e)
    | .ok _ => do
      let stats ← fetchRow sha256 b stats
      fetchRows rows stats

/-- `Fetch`, of a database with these rows. -/
def Fetch (inventory : List Blob) : Run (Stats × Option Err) := do
  match ← Action.attempt (request .list) with
  | .error e => pure ({}, some e)
  | .ok _ => fetchRows sha256 inventory {}

end Blobs

end KyNotes.Mirror
