import KyNotes.Cleanup.Slots
import KyNotes.Server.Effects

/-!
# The server with its cleanup slots

The server of `Server/System`, the table of slots and the recorded audit events, under calls: an operation, and what the
middleware finds in its request. A transaction that creates a comment or a link reserves a slot, one that deletes or
revokes one fills it, and the triggers follow the deleted rows of whatever transaction it was. A statement of a slot
that fails takes its transaction along.
-/

namespace KyNotes.Cleanup

open Relational Check

/-- What `ids.Mint` makes. -/
abbrev MintedId := {b : Bytes // b.length = idBytes}

/-- One operation, as it comes in. -/
structure Call where
  op : Op
  /-- The request came through a trusted proxy. -/
  trusted : Bool
  /-- `X-Request-Id`. -/
  header : Bytes
  minted : MintedId
  /-- What the handlers of the other operations record. -/
  recorded : List AuditEvent

/-- The header of a trusted proxy, without CR and LF. -/
def Call.headerId (c : Call) : Bytes := if c.trusted then c.header.filter fun b => b ≠ 0x0a ∧ b ≠ 0x0d else []

/-- The request ID that the middleware sets. -/
def Call.requestId (c : Call) : Bytes :=
  if c.headerId = [] ∨ maxAuditRequestIDBytes < c.headerId.length then c.minted else c.headerId

theorem Call.requestId_length (c : Call) : c.requestId.length ≤ maxAuditRequestIDBytes := by
  unfold Call.requestId
  split
  · rw [c.minted.2]
    decide
  · rename_i h
    exact Nat.le_of_not_lt fun hl => h (.inr hl)

structure State where
  server : World
  slots : Slots
  events : List AuditEvent

abbrev State.db (s : State) : DB := s.server.store.db

/-- A new server. -/
def State.init : State := ⟨World.init, .empty, []⟩

variable (cfg : Config) (e : Encoding)

/-- The slots after the statements of a transaction, without the triggers. -/
def slotTx (s : State) (c : Call) : Except Err Slots :=
  let store := s.server.store
  match c.op with
  | .deleteComment u id =>
    match deleteComment store.db u id store.now with
    | .error _ => .ok s.slots
    | .ok _ =>
      if Live store.db ⟨.comment, id⟩ then fill e s.slots ⟨.comment, id⟩ u c.requestId store.now else .ok s.slots
  | .revokeShareLink u id =>
    match revokeShareLink store.db u id store.now with
    | .error _ => .ok s.slots
    | .ok _ => fill e s.slots ⟨.sealedShareLink, id⟩ u c.requestId store.now
  | .createShareLink u n expiresAt budget =>
    match createShareLink cfg store.db store.now u store.next n expiresAt budget with
    | .error _ => .ok s.slots
    | .ok _ => reserve e s.slots ⟨.sealedShareLink, store.next⟩ none store.next
  | .resume rid =>
    match s.server.job rid with
    | some (.comment r (.tx cid)) =>
      match commentTx cfg store.db store.now r cid store.next with
      | .error _ => .ok s.slots
      | .ok _ => reserve e s.slots ⟨.comment, store.next⟩ (some cid) store.next
    | _ => .ok s.slots
  | _ => .ok s.slots

/-- The server after a transaction that a statement of a slot refused. -/
def rolledBack (w : World) : Op → World
  | .resume rid => w.drop rid
  | _ => w

/-- What the handler records in `audit_events`: the deletions and revocations nothing. -/
def Call.records (c : Call) : List AuditEvent :=
  match c.op with
  | .deleteComment .. | .revokeShareLink .. => []
  | _ => c.recorded

/-- One call. -/
def State.step (s : State) (c : Call) : State :=
  match slotTx cfg e s c with
  | .error _ => { s with server := rolledBack s.server c.op }
  | .ok slots =>
    let w := s.server.next cfg c.op
    { server := w, slots := dropPending slots s.db w.store.db, events := s.events ++ c.records }

def State.run (s : State) (cs : List Call) : State := Transition.run (State.step cfg e) s cs

/-- The state that calls make of a new server. -/
def State.reach (cs : List Call) : State := State.init.run cfg e cs

/-- The history of a state. -/
def State.history (s : State) : List AuditEvent := auditHistory s.events s.slots

end KyNotes.Cleanup
