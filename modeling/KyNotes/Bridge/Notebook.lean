import KyNotes.Bridge.Trust
import KyNotes.Content.Opening

/-!
# The bridge's notebook (`cmd/kynotes-mcp/notebook.go`, `trust.go`, `tools.go`)

`refresh`, `index` and the tools over them, as steps of a process and of its file. Every answer of the server is a choice of
the environment, and so is whether a file is saved: a process that is killed inside a step has seen no more than one whose
next request or save fails, as all that it leaves is the file.

A text of the server's JSON is the code units of it. What `ok` of a cache entry says is whether it has a payload.
-/

namespace KyNotes.Bridge

open Relational Web Check
open Content (Payload)
open Content.Notecrypto (openObject openContainerName)

/-- What the bridge imports. -/
structure Imports where
  suite : Suite
  content : Aead UInt8
  /-- `json.Unmarshal`, as far as it reads bytes. -/
  json : Bytes → Option Json

/-! ## State -/

/-- `trustState`, and `trust.json`: no file is the empty state. -/
structure TrustState where
  pins : Pins
  containers : Record JsString KeyState

def TrustState.empty : TrustState := ⟨Table.empty, Table.empty⟩

/-- `t.Containers[id]`, or `keyState{}`. -/
def TrustState.known (t : TrustState) (id : JsString) : KeyState := (t.containers.lookup id).getD .zero

/-- The payload of an object at a change sequence; nothing where it could not be read. -/
structure Cached where
  seq : Int
  payload : Option Payload
deriving DecidableEq

structure Entry where
  id : JsString
  payload : Payload
deriving DecidableEq

/-- `notebook`, with the state that it is to save. -/
structure Notebook where
  id : JsString
  trust : TrustState
  role : Option Role
  keyGeneration : Int
  shared : Int
  migrated : Bool
  ring : Record Int Bytes
  cache : Record JsString Cached
  sections : List Entry
  pages : List Entry

/-- The notebook of a process that starts on a file. -/
def Notebook.start (id : JsString) (file : TrustState) : Notebook :=
  ⟨id, file, none, 0, 0, false, Table.empty, Table.empty, [], []⟩

/-- A process and its file. -/
structure Machine where
  file : TrustState
  nb : Notebook

def Machine.known (m : Machine) : KeyState := m.nb.trust.known m.nb.id

/-- `*known = k`. -/
def Machine.setKnown (m : Machine) (k : KeyState) : Machine :=
  { m with nb := { m.nb with trust := { m.nb.trust with containers := m.nb.trust.containers.set m.nb.id k } } }

/-- `save`. -/
def Machine.save (m : Machine) : Machine := { m with file := m.nb.trust }

/-! ## Keys in use -/

/-- A key as it is used: to open an object or the notebook's name, with the older form allowed or not, or to seal. -/
inductive Use
  | opening (object : JsString) (generation : Int) (key body : Bytes) (v1 : Bool)
  | naming (generation : Int) (key body : Bytes) (v1 : Bool)
  | sealing (object : JsString) (generation : Int) (key : Bytes)
deriving DecidableEq

def Use.generation : Use → Int
  | .opening _ g _ _ _ | .naming g _ _ _ | .sealing _ g _ => g

def Use.key : Use → Bytes
  | .opening _ _ key _ _ | .naming _ key _ _ | .sealing _ _ key => key

/-! ## `refresh` -/

/-- An answer; 404 is told from the other failures. -/
inductive Reply (α : Type)
  | ok (a : α)
  | notFound
  | failed

/-- A member as the server lists it, the own ID when it is looked at, and the answer for its identity. -/
structure MemberAnswer where
  member : Member
  userID : JsString
  identity : Reply PublicIdentity

/-- The answers to one `refresh`; nothing is a failure. A sign-in in between may change the own identity. -/
structure Answers where
  containers : Option (List Container)
  firstSave : Bool
  members : Option (List MemberAnswer)
  rows : Option (List EnvelopeRow)
  me : Self
  secondSave : Bool

inductive RefreshError
  | request | notMember | rollback | save | olderMeta
  | pinChanged (e : PinChanged)

/-- What `refresh` leaves, the name it has tried to open, and its error. -/
structure Refreshed where
  machine : Machine
  named : List Use
  error : Option RefreshError

/-- The container of the notebook. -/
def reported (a : Answers) (id : JsString) : Except RefreshError Container := do
  let list ← fetch a.containers .request
  fetch (list.find? fun c => c.id = id) .notMember

/-- The floor is raised and saved, and the generations are taken over. -/
def Machine.raise (m : Machine) (c : Container) (save : Bool) : Machine × Option RefreshError :=
  let m := m.setKnown m.known
  match m.known.raise c with
  | none => (m, some .rollback)
  | some known =>
    let m := m.setKnown known
    if save then
      let m := m.save
      ({ m with nb := { m.nb with keyGeneration := c.keyGeneration, shared := c.sharedGeneration } }, none)
    else (m, some .save)

/-- The members with the identities of the other stewards, and the own role as far as it is read; nothing where a request
fails. -/
def readMembers : Option Role → List MemberAnswer → Option Role × Option (List Member)
  | role, [] => (role, some [])
  | role, a :: as =>
    let m := { a.member with identity := none }
    let goOn (role : Option Role) (m : Member) :=
      let (role, ms) := readMembers role as
      (role, ms.map (m :: ·))
    if m.userId = a.userID then goOn (some m.role) m
    else if isSteward m.role = false ∨ isId .usr m.userId = false then goOn role m
    else
      match a.identity with
      | .ok identity => goOn role { m with identity := some identity }
      | .notFound => goOn role m
      | .failed => (role, none)

/-- The opened keyring in memory: the pins of first contact and the key state. -/
def Machine.adopt (m : Machine) (opened : OpenedRing) : Machine :=
  let pins := opened.fresh.foldl
    (fun (pins : Pins) f => pins.set f.userId ((f.identity.map PublicIdentity.publicKey).getD [])) m.nb.trust.pins
  { m with nb := { m.nb with trust := { m.nb.trust with pins := pins } } }.setKnown opened.known

section Refresh

variable (I : Imports)

/-- The name and the key that it is opened with; nothing where nothing is decided. -/
def Machine.nameKey (m : Machine) (c : Container) (ring : Record Int Bytes) : Option (Bytes × Bytes) :=
  let sealed := Base64.decodePrefix c.metaCiphertext
  if sealed = [] then none else (readKey ring m.nb.shared m.nb.keyGeneration).map fun key => (key, sealed)

/-- The migration marker once the name is read; nothing is `errOlderMeta`. -/
def Machine.marker (m : Machine) (c : Container) (ring : Record Int Bytes) : Option Int :=
  match m.nameKey c ring with
  | none => some m.known.objects
  | some (key, sealed) =>
    match openContainerName I.content I.json key (Utf16.encode m.nb.id) sealed (m.known.objects < 2) with
    | .ok (_, true) => some 2
    | _ => if m.known.objects = 2 then none else some m.known.objects

/-- The key that is tried on the name. -/
def Machine.named (m : Machine) (c : Container) (ring : Record Int Bytes) : List Use :=
  (m.nameKey c ring).toList.map fun x => .naming m.nb.keyGeneration x.1 x.2 (m.known.objects < 2)

/-- The end of `refresh`. -/
def Machine.finish (m : Machine) (c : Container) (ring : Record Int Bytes) (save : Bool) : Refreshed :=
  let named := m.named c ring
  match m.marker I c ring with
  | none => ⟨m, named, some .olderMeta⟩
  | some objects =>
    let m := m.setKnown { m.known with objects }
    if save then
      let m := m.save
      let cache := if objects = 2 ∧ m.nb.migrated = false then Table.empty else m.nb.cache
      ⟨{ m with nb := { m.nb with cache, ring, migrated := objects = 2 } }, named, none⟩
    else ⟨m, named, some .save⟩

/-- `refresh` up to the name: the opened keyring in memory and the container, or where it ends before. -/
def Machine.look (m : Machine) (a : Answers) : Except (Machine × RefreshError) (Machine × Container × OpenedRing) :=
  match reported a m.nb.id with
  | .error e => .error (m, e)
  | .ok c =>
    match m.raise c a.firstSave with
    | (m, some e) => .error (m, e)
    | (m, none) =>
      match a.members with
      | none => .error (m, .request)
      | some answers =>
        let (role, members) := readMembers none answers
        let m := { m with nb := { m.nb with role } }
        match members, a.rows with
        | some members, some rows =>
          match openKeyring I.suite m.nb.id a.me members m.nb.trust.pins rows m.known with
          | .error e => .error (m, .pinChanged e)
          | .ok opened => .ok (m.adopt opened, c, opened)
        | _, _ => .error (m, .request)

/-- `refresh`. -/
def Machine.refresh (m : Machine) (a : Answers) : Refreshed :=
  match m.look I a with
  | .error (m, e) => ⟨m, [], some e⟩
  | .ok (m, c, opened) => m.finish I c opened.ring a.secondSave

end Refresh

/-! ## `index` -/

/-- What a read of an object is answered. -/
structure Served where
  body : Bytes
  version : Int
  generation : Int

structure Change where
  id : JsString
  kind : JsString
  changeSeq : Int
  deleted : Bool

/-- A change as it is listed, and what a read of its object is answered when its turn comes. -/
structure Listing where
  change : Change
  read : Reply Served

structure ChangesPage where
  changes : List Listing
  nextCursor : JsString
  hasMore : Bool

inductive OpenError | unreadable | notFound | failed
deriving DecidableEq

/-- What `index` has when it stops: the cache, the live objects and the keys used. -/
structure Walk where
  cache : Record JsString Cached
  live : List JsString
  uses : List Use

def kindObject : JsString := Utf16.ofText "object"

/-- A change that `index` looks at. -/
def Change.listed (c : Change) : Bool := c.kind = kindObject ∧ c.deleted = false

/-- `compareOrdered`: ordered before unordered, then by ID. -/
def compareOrdered (a b : Entry) : Int :=
  if a.payload.order ≠ "" ∧ b.payload.order ≠ "" ∧ a.payload.order ≠ b.payload.order then
    if a.payload.order < b.payload.order then -1 else 1
  else if decide (a.payload.order ≠ "") ≠ decide (b.payload.order ≠ "") then
    if a.payload.order ≠ "" then -1 else 1
  else
    let units (e : Entry) : List Nat := e.id.map UInt16.toNat
    if units a < units b then -1 else if units b < units a then 1 else 0

section Index

variable (I : Imports) (n : Notebook)

/-- `open`, with the answer to its read: the payload and the version. -/
def Notebook.openAnswer (id : JsString) (answer : Reply Served) : Except OpenError (Payload × Int) :=
  match answer with
  | .notFound => .error .notFound
  | .failed => .error .failed
  | .ok r =>
    match readKey n.ring n.shared r.generation with
    | none => .error .unreadable
    | some key =>
      match openObject I.content I.json key (Utf16.encode n.id) (Utf16.encode id) r.body (!n.migrated) with
      | .ok p => .ok (p, r.version)
      | .error _ => .error .unreadable

/-- The key that `open` uses. -/
def Notebook.openUses (id : JsString) (read : Reply Served) : List Use :=
  match read with
  | .ok r => (readKey n.ring n.shared r.generation).toList.map fun key => .opening id r.generation key r.body (!n.migrated)
  | _ => []

/-- One change. An object that is created and never saved is unreadable. -/
def Notebook.visit (w : Walk) (l : Listing) : Except Walk Walk :=
  let id := l.change.id
  if l.change.listed = false then .ok w
  else
    let w := { w with live := w.live ++ [id] }
    if (w.cache.lookup id).any fun c => c.seq = l.change.changeSeq then .ok w
    else
      let w := { w with uses := w.uses ++ n.openUses id l.read }
      match n.openAnswer I id l.read with
      | .error .failed => .error w
      | .error _ => .ok { w with cache := w.cache.set id ⟨l.change.changeSeq, none⟩ }
      | .ok (p, _) => .ok { w with cache := w.cache.set id ⟨l.change.changeSeq, some p⟩ }

/-- The pages of changes from a cursor; the request after the last answer fails. -/
def Notebook.walk : JsString → Walk → List ChangesPage → Except Walk Walk
  | _, w, [] => .error w
  | cursor, w, page :: pages => do
    let w ← forEach (n.visit I) w page.changes
    if page.hasMore = false ∨ page.nextCursor = cursor then .ok w else Notebook.walk page.nextCursor w pages

/-- The readable entries of a type. -/
def entries (cache : Record JsString Cached) (type : Content.PayloadType) : List Entry :=
  cache.rows.filterMap fun (id, c) => (c.payload.filter fun p => p.type = type).map fun p => ⟨id, p⟩

/-- `index`: what it leaves, the keys used, and whether it succeeds. -/
def Notebook.index (pages : List ChangesPage) : Notebook × List Use × Bool :=
  match n.walk I (Utf16.ofText "0") ⟨n.cache, [], []⟩ pages with
  | .error w => ({ n with cache := w.cache }, w.uses, false)
  | .ok w =>
    let cache := w.cache.delete fun r => w.live.contains r.1 = false
    ({ n with
        cache := cache
        sections := (entries cache .sect).mergeSort fun a b => compareOrdered a b ≤ 0
        pages := entries cache .page }, w.uses, true)

end Index

/-! ## Tools -/

/-- `writeKey`. -/
def Notebook.writeKey (n : Notebook) : Option (Bytes × Int) :=
  if n.shared > 0 then (n.ring.lookup n.keyGeneration).map fun key => (key, n.keyGeneration) else none

/-- What a tool does after `index`: `list_pages`, `read_page` and `search` read the pages, `create_page` seals the page that
it makes of them, `append_to_page` reads a page anew and seals it with the blocks, at most twice. -/
inductive Tool
  /-- Its input is refused before `index`. -/
  | refused
  | read
  /-- With the page, nothing where it is refused, and the ID that the server gives to the object. -/
  | create (page : List Entry → List Entry → Option Payload) (object : Option JsString)
  /-- With what `appendBlocks` does to a body, the answers to the reads, and whether the saves meet a version conflict. -/
  | append (id : JsString) (blocks : String → Option String) (reads : List (Reply Served × Bool))

/-- `appendTo`, an attempt for each answer. -/
def Notebook.appendTo (I : Imports) (n : Notebook) (id : JsString) (blocks : String → Option String) (key : Bytes)
    (generation : Int) : List (Reply Served × Bool) → List Use
  | [] => []
  | (read, conflict) :: rest =>
    let uses := n.openUses id read
    match n.openAnswer I id read with
    | .error _ => uses
    | .ok (p, _) =>
      if p.type = .page ∧ (blocks p.body).isSome then
        let uses := uses ++ [.sealing id generation key]
        if conflict then uses ++ n.appendTo I id blocks key generation rest else uses
      else uses

/-- The keys that a tool uses once `index` has succeeded. -/
def Notebook.toolUses (I : Imports) (n : Notebook) (t : Tool) : List Use :=
  match t, n.writeKey with
  | .create page (some object), some (key, generation) =>
    if (page n.sections n.pages).isSome then [.sealing object generation key] else []
  | .append id blocks reads, some (key, generation) =>
    if n.pages.any fun p => p.id = id then n.appendTo I id blocks key generation (reads.take 2) else []
  | _, _ => []

/-! ## Steps -/

/-- The file, and the process that holds the lock on it. -/
structure World where
  file : TrustState
  process : Option Notebook

def World.init : World := ⟨.empty, none⟩

/-- A process is started on a notebook, a tool is called, the process ends. -/
inductive Event
  | start (id : JsString) (a : Answers)
  | call (a : Answers) (changes : List ChangesPage) (t : Tool)
  | stop

section Steps

variable (I : Imports) (w : World)

/-- The notebook of an event. -/
def World.notebook (e : Event) : Option JsString :=
  match e, w.process with
  | .start id _, none => some id
  | .call _ _ _, some nb => some nb.id
  | _, _ => none

/-- The `refresh` of an event. -/
def World.refreshed (e : Event) : Option Refreshed :=
  match e, w.process with
  | .start id a, none => some (Machine.refresh I ⟨w.file, .start id w.file⟩ a)
  | .call a _ _, some nb => some (Machine.refresh I ⟨w.file, nb⟩ a)
  | _, _ => none

/-- The `index` of an event, after a `refresh` without an error. -/
def World.ran (e : Event) : Option (Notebook × List Use × Bool) :=
  match e, w.refreshed I e with
  | .call _ _ .refused, _ => none
  | .call _ changes _, some ⟨m, _, none⟩ => some (m.nb.index I changes)
  | _, _ => none

/-- A start that fails ends the process, and so does a changed pin. -/
def World.step (e : Event) : World :=
  match e, w.refreshed I e with
  | .stop, _ => { w with process := none }
  | _, none => w
  | .start _ _, some r => ⟨r.machine.file, if r.error.isNone then some r.machine.nb else none⟩
  | .call _ _ _, some ⟨m, _, some (.pinChanged _)⟩ => ⟨m.file, none⟩
  | .call _ _ _, some ⟨m, _, some _⟩ => ⟨m.file, some m.nb⟩
  | .call _ _ _, some ⟨m, _, none⟩ => ⟨m.file, some (((w.ran I e).map Prod.fst).getD m.nb)⟩

/-- The keys that the tool of an event uses. -/
def World.uses (e : Event) : List Use :=
  match e, w.ran I e with
  | .call _ _ t, some (n, uses, ok) => uses ++ if ok then n.toolUses I t else []
  | _, _ => []

/-- The keys that the `refresh` of an event tries on the name. -/
def World.named (e : Event) : List Use := ((w.refreshed I e).map Refreshed.named).getD []

end Steps

end KyNotes.Bridge
