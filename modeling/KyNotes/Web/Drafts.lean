import KyNotes.Lib.ObjectStore
import KyNotes.Web.Values

/-!
# Drafts and the save queue of a browser

The two object stores of `storage.ts` that hold an edit before the server has it: the draft cache `notes` and the save
queue `pending`, both keyed by owner and page. Every operation below is one IndexedDB transaction; the tabs of a browser
share the stores and their transactions do not overlap, so a run of the stores is a list of operations.
-/

namespace KyNotes.Web

open Relational

structure CachedNote where
  id : JsString
  containerId : JsString
  version : Num
  payload : Bytes
  updatedAt : JsString
  keyGeneration : Option Num
  unsent : Bool
deriving DecidableEq

/-- A queued save. A row of the cache has this type too: `putDraft` writes the queued save there with all its fields. -/
structure PendingSave extends CachedNote where
  owner : JsString
  previousKey : Bool
  gone : Bool
  conflicted : Bool
deriving DecidableEq

/-- `keyPath: ["owner", "id"]`. -/
def PendingSave.key (n : PendingSave) : JsString × JsString := (n.owner, n.id)

structure LocalStores where
  notes : Table PendingSave.key
  pending : Table PendingSave.key

/-- `sameDraft`. -/
def sameDraft (current : Option PendingSave) (expected : CachedNote) : Bool :=
  match current with
  | none => false
  | some c => c.updatedAt == expected.updatedAt && c.version == expected.version &&
      c.keyGeneration == expected.keyGeneration && sameBytes c.payload expected.payload

/-! ## The transactions -/

def putDraft (s : LocalStores) (note : PendingSave) : LocalStores where
  notes := s.notes.put { note with unsent := true }
  pending := s.pending.put note

/-- `result?.gone || result?.previousKey`. -/
def setAside (result : Option PendingSave) : Bool := result.any fun q => q.gone || q.previousKey

/-- The end of `recoverDraft`: a marked draft is queued unless the queue has a newer save or the same bytes. -/
def requeue (s : LocalStores) (owner : JsString) (draft : PendingSave) (result : Option PendingSave) :
    LocalStores × Option PendingSave :=
  if !draft.unsent || setAside result then (s, result)
  else if result.any fun q => draft.updatedAt < q.updatedAt then (s, result)
  else if result.any fun q => sameBytes q.payload draft.payload then (s, result)
  else ({ s with pending := s.pending.put { draft with owner } }, some { draft with owner })

/-- The stores, and the queued save that the caller is given. -/
def recoverDraft (s : LocalStores) (owner id : JsString) (expectedLegacy : Option CachedNote) :
    LocalStores × Option PendingSave :=
  let result := s.pending.get (owner, id)
  match s.notes.get (owner, id) with
  | none => (s, result)
  | some cached =>
    -- an unmarked cache of an old build that the caller compared with the server
    if expectedLegacy.any fun e => !setAside result && sameDraft (some cached) e then
      requeue { s with notes := s.notes.put { cached with unsent := true } } owner { cached with unsent := true } result
    else requeue s owner cached result

def settleDraft (s : LocalStores) (expected : PendingSave) (version : Option Num) : LocalStores where
  pending := if sameDraft (s.pending.get expected.key) expected.toCachedNote then s.pending.remove expected.key
    else s.pending
  notes :=
    match s.notes.get expected.key with
    | none => s.notes
    | some current =>
      if sameDraft (some current) expected.toCachedNote then
        match version with
        | none => s.notes.remove expected.key
        | some v => s.notes.put { current with unsent := false, version := v }
      else s.notes

def clearQueuedSave (s : LocalStores) (owner id : JsString) (updatedAt : JsString) : LocalStores :=
  if (s.pending.get (owner, id)).any fun q => q.updatedAt = updatedAt then
    { s with pending := s.pending.remove (owner, id) }
  else s

/-- The stores, and whether `expected` was still there. -/
def replaceQueuedSave (s : LocalStores) (expected : PendingSave) (next : Option PendingSave) : LocalStores × Bool :=
  if sameDraft (s.pending.get expected.key) expected.toCachedNote then
    match next with
    | none => ({ s with pending := s.pending.remove expected.key }, true)
    | some next =>
      let replacement := { next with owner := expected.owner, id := expected.id }
      let notes :=
        match s.notes.get expected.key with
        | none => s.notes
        | some current =>
          if sameDraft (some current) expected.toCachedNote then
            s.notes.put { replacement with unsent := current.unsent }
          else s.notes
      ({ notes, pending := s.pending.put replacement }, true)
  else (s, false)

/-- A transaction of some tab. -/
inductive DraftOp
  | putDraft (note : PendingSave)
  | recoverDraft (owner id : JsString) (expectedLegacy : Option CachedNote)
  | settleDraft (expected : PendingSave) (version : Option Num)
  | clearQueuedSave (owner id : JsString) (updatedAt : JsString)
  | replaceQueuedSave (expected : PendingSave) (next : Option PendingSave)

def LocalStores.next (s : LocalStores) : DraftOp → LocalStores
  | .putDraft note => Web.putDraft s note
  | .recoverDraft owner id expectedLegacy => (Web.recoverDraft s owner id expectedLegacy).1
  | .settleDraft expected version => Web.settleDraft s expected version
  | .clearQueuedSave owner id updatedAt => Web.clearQueuedSave s owner id updatedAt
  | .replaceQueuedSave expected next => (Web.replaceQueuedSave s expected next).1

end KyNotes.Web
