import KyNotes.Content.Payload

/-!
# Page payloads of the web client (`web/src/pages.ts`, `web/src/order.ts`)

`parseObjectPayload` narrows the same JSON. An optional field that is absent and one that is `undefined` are one: no
reader and no `JSON.stringify` tells them apart.
-/

namespace KyNotes.Content

open Json

/-- The UTF-16 code units of a character. -/
def utf16Size (c : Char) : Nat := if c.toNat ≤ 0xffff then 1 else 2

/-- `length` of a JavaScript string. -/
def utf16Length (s : String) : Nat := (s.toList.map utf16Size).sum

/-- `[0-9abcdefghjkmnpqrstvwxyz]`. -/
def crockford (c : Char) : Bool :=
  ('0' ≤ c ∧ c ≤ '9') ∨ c ∈ ['a', 'b', 'c', 'd', 'e', 'f', 'g', 'h', 'j', 'k', 'm', 'n', 'p', 'q', 'r', 's', 't', 'v', 'w',
    'x', 'y', 'z']

/-- `OBJECT_ID`. -/
def objectId (s : String) : Bool := prefixedId crockford ['o', 'b', 'j', '_'] s.toList

/-- `CHILD_ID`. -/
def childId (s : String) : Bool := childIdOf crockford s.toList

/-- `SECTION_COLORS`. -/
def sectionColors : List String := ["orange", "blue", "green", "purple", "red", "teal", "yellow", "gray"]

/-- `MAX_ORDER_KEY`. -/
def maxOrderKey : Nat := 512

/-- `isOrderKey`, for a string. -/
def isOrderKey (s : String) : Bool := utf16Length s ≤ maxOrderKey ∧ orderKey s

/-- `ObjectPayload`: `SectionPayload`, `GroupPayload` or `PagePayload`. -/
inductive ObjectPayload
  | sect (title color : String) (order group : Option String)
  | group (title color : String) (order group : Option String)
  | page (title body : String) (sectionId order : Option String) (level : Option ℚ) (legacy : Option Legacy)
deriving DecidableEq

/-- A property that is a string. -/
def stringOf (v : Option Json) : Option String :=
  match v with
  | some (.str s) => some s
  | _ => none

/-- `parseLegacy`. -/
def parseLegacy (value : Json) : Legacy :=
  match value with
  | .obj pins =>
    fromEntries ((entries pins).filterMap fun x =>
      (stringOf (some x.2)).bind fun s => if childId x.1 ∧ digestHex s then some (x.1, s) else none)
  | _ => ∅

/-- `v.level === 0 || v.level === 1 || v.level === 2`. -/
def parseLevel (v : Option Json) : Option ℚ :=
  match v with
  | some (.num n) => if n = 0 ∨ n = 1 ∨ n = 2 then some n else none
  | _ => none

/-- `parseObjectPayload`. -/
def parseObjectPayload (value : Json) : Option ObjectPayload :=
  match value with
  | .obj m =>
    let v := lastValue m
    let order := (stringOf (v "order")).filter isOrderKey
    let group := (stringOf (v "group")).filter objectId
    let color := ((stringOf (v "color")).filter fun c => c ∈ sectionColors).getD "gray"
    if stringOf (v "type") = some "section" then
      some (.sect ((stringOf (v "title")).getD "Untitled section") color order group)
    else if stringOf (v "type") = some "group" then
      some (.group ((stringOf (v "title")).getD "Untitled group") color order group)
    else
      (stringOf (v "body")).map fun body =>
        .page ((stringOf (v "title")).getD "") body ((stringOf (v "section")).filter objectId) order
          (parseLevel (v "level")) ((v "legacy").map parseLegacy)
  | _ => none

/-- The Go form of a payload: an absent text is empty. -/
def ObjectPayload.toPayload : ObjectPayload → Payload
  | .sect title color order enclosing =>
    { type := .sect, title := title, body := "", sectionId := "", level := none, color := color,
      group := enclosing.getD "", order := order.getD "", legacy := none }
  | .group title color order enclosing =>
    { type := .group, title := title, body := "", sectionId := "", level := none, color := color,
      group := enclosing.getD "", order := order.getD "", legacy := none }
  | .page title body sectionId order level legacy =>
    { type := .page, title := title, body := body, sectionId := sectionId.getD "",
      level := level.map fun n => n.num.toNat, color := "", group := "", order := order.getD "", legacy := legacy }

end KyNotes.Content
