import KyNotes.Server.Gc

/-!
# The change feed (`sync_routes.go`)

`GET /containers/{id}/changes`: the rows of four tables whose `change_seq` is past the cursor, in the order of that
number, cut at the limit.
-/

namespace KyNotes

open Relational

inductive EntryKind | object | attachment | comment | conflict
deriving DecidableEq, Repr

/-- One entry of the feed. -/
structure Entry where
  id : Nat
  kind : EntryKind
  changeSeq : Nat
  deleted : Bool
  routing : Bytes
deriving DecidableEq

def Object.entry (o : Object) : Entry := ⟨o.id, .object, o.changeSeq, o.deletedAt.isSome, o.routing⟩

def Attachment.entry (a : Attachment) : Entry := ⟨a.id, .attachment, a.changeSeq, a.deletedAt.isSome, []⟩

def Comment.entry (c : Comment) : Entry := ⟨c.id, .comment, c.changeSeq, c.deletedAt.isSome, []⟩

/-- A conflict counts as deleted once it is resolved. -/
def Conflict.entry (c : Conflict) : Entry := ⟨c.id, .conflict, c.changeSeq, c.resolvedAt.isSome, []⟩

/-- The entries of a container: the `UNION ALL` without the condition on the cursor. -/
def feedEntries (p : PageTables) (cid : ContainerId) : List Entry :=
  (p.objects.rows.filter fun o => o.containerId = cid).map Object.entry ++
  (p.attachments.rows.filter fun a => a.containerId = cid).map Attachment.entry ++
  (p.comments.rows.filter fun c => c.containerId = cid).map Comment.entry ++
  (p.conflicts.rows.filter fun c => c.containerId = cid).map Conflict.entry

/-- The entries past a cursor, `ORDER BY change_seq`. -/
def entriesAfter (p : PageTables) (cid : ContainerId) (since : Int) : List Entry :=
  ((feedEntries p cid).filter fun e => since < e.changeSeq).mergeSort fun a b => a.changeSeq ≤ b.changeSeq

/-- The limit of a request: 200 unless given, 1000 at most. -/
def clampLimit (limit : Int) : Nat := if limit ≤ 0 then 200 else if 1000 < limit then 1000 else limit.toNat

structure FeedPage where
  changes : List Entry
  nextCursor : Int
  hasMore : Bool
deriving DecidableEq

/-- The cursor after the entries that were sent. -/
def advanceCursor (since : Int) (es : List Entry) : Int :=
  es.foldl (fun next e => if next < e.changeSeq then e.changeSeq else next) since

/-- The answer to a member who asks with a cursor and a limit. -/
def changes (p : PageTables) (cid : ContainerId) (since : Int) (limit : Int) : FeedPage :=
  let rows := (entriesAfter p cid since).take (clampLimit limit + 1)
  let out := rows.take (clampLimit limit)
  { changes := out, nextCursor := advanceCursor since out, hasMore := clampLimit limit < rows.length }

end KyNotes
