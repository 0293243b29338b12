import KyNotes.Lib.Json
import Mathlib.Algebra.Order.Ring.Nat
import Mathlib.Data.Finset.Sort
import Mathlib.Data.String.Basic

/-!
# Page payloads of the Go client (`internal/notecrypto/notecrypto.go`)

`parsePayload` narrows untrusted JSON field by field, `Payload.wire` is what `marshal` writes. `json.Unmarshal` and
`json.Encoder` are exact on values; the one thing that `Unmarshal` refuses of a value is nesting beyond
`maxNestingDepth`.

A regular expression is a test on the characters of a text; a text is never measured but in the units of its language
(`utf8Length` here).
-/

namespace KyNotes.Content

open Json

/-! ## Formats -/

/-- `len` of a Go string. -/
def utf8Length (s : String) : Nat := (s.toList.map fun c => c.utf8Size).sum

/-- `[0-9a-hjkmnp-tv-z]`. -/
def idDigit (c : Char) : Bool :=
  ('0' ≤ c ∧ c ≤ '9') ∨ ('a' ≤ c ∧ c ≤ 'h') ∨ c = 'j' ∨ c = 'k' ∨ c = 'm' ∨ c = 'n' ∨ ('p' ≤ c ∧ c ≤ 't') ∨
    ('v' ≤ c ∧ c ≤ 'z')

/-- A prefix and 26 digits. -/
def prefixedId (digit : Char → Bool) (pre : List Char) (cs : List Char) : Bool :=
  cs.take pre.length = pre ∧ (cs.drop pre.length).length = 26 ∧ (cs.drop pre.length).all digit

/-- `(cmt_...|att_...(/meta)?)`. -/
def childIdOf (digit : Char → Bool) (cs : List Char) : Bool :=
  prefixedId digit ['c', 'm', 't', '_'] cs ∨ prefixedId digit ['a', 't', 't', '_'] cs ∨
    (prefixedId digit ['a', 't', 't', '_'] (cs.take 30) ∧ cs.drop 30 = ['/', 'm', 'e', 't', 'a'])

/-- `objectID`. -/
def objectID (s : String) : Bool := prefixedId idDigit ['o', 'b', 'j', '_'] s.toList

/-- `childID`. -/
def childID (s : String) : Bool := childIdOf idDigit s.toList

/-- `[0-9a-f]{64}`. -/
def digestHex (s : String) : Bool :=
  s.toList.length = 64 ∧ s.toList.all fun c => ('0' ≤ c ∧ c ≤ '9') ∨ ('a' ≤ c ∧ c ≤ 'f')

/-- `[0-9a-z]`. -/
def orderDigit (c : Char) : Bool := ('0' ≤ c ∧ c ≤ '9') ∨ ('a' ≤ c ∧ c ≤ 'z')

/-- `^[0-9a-z]*[1-9a-z]$`. -/
def orderKey (s : String) : Bool := s.toList.all orderDigit ∧ (s.toList.getLast?.any fun c => c ≠ '0')

/-- `colors`. -/
def colors : List String := ["orange", "blue", "green", "purple", "red", "teal", "yellow", "gray"]

/-! ## Payloads -/

/-- A migrated page's pins. -/
abbrev Legacy := Finmap fun _ : String => String

/-- `Payload.Type`. -/
inductive PayloadType | page | sect | group
deriving DecidableEq

def PayloadType.text : PayloadType → String
  | .page => "page"
  | .sect => "section"
  | .group => "group"

/-- `Payload`. -/
structure Payload where
  type : PayloadType
  title : String
  body : String
  sectionId : String
  level : Option Nat
  color : String
  group : String
  order : String
  legacy : Option Legacy
deriving DecidableEq

/-- `maxNestingDepth` of `encoding/json`. -/
def maxNestingDepth : Nat := 10000

/-- `json.Unmarshal` into a `map[string]any`, which must not stay nil. -/
def unmarshal (v : Json) : Option (List (String × Json)) :=
  match v with
  | .obj m => if v.depth ≤ maxNestingDepth then some m else none
  | _ => none

/-- `s, ok := v[k].(string)`. -/
def str (m : List (String × Json)) (k : String) : Option String :=
  match lastValue m k with
  | some (.str s) => some s
  | _ => none

/-- An object ID, or nothing. -/
def id (m : List (String × Json)) (k : String) : String :=
  let s := (str m k).getD ""
  if objectID s then s else ""

/-- The order key, or nothing. -/
def orderOf (m : List (String × Json)) : String :=
  let s := (str m "order").getD ""
  if utf8Length s ≤ 512 ∧ orderKey s then s else ""

/-- `v["level"].(float64)`. -/
def levelOf (m : List (String × Json)) : Option Nat :=
  match lastValue m "level" with
  | some (.num n) => if n = 0 ∨ n = 1 ∨ n = 2 then some n.num.toNat else none
  | _ => none

/-- The loop over the pins; their keys are distinct, so that its order does not matter. -/
def pinsOf (raw : Json) : Legacy :=
  match raw with
  | .obj pins =>
    (entries pins).foldl
      (fun legacy x =>
        match x.2 with
        | .str s => if childID x.1 ∧ digestHex s then legacy.insert x.1 s else legacy
        | _ => legacy) ∅
  | _ => ∅

/-- A section or a group. -/
def folderOf (m : List (String × Json)) (t : PayloadType) : Payload :=
  let c := (str m "color").getD ""
  { type := t, title := (str m "title").getD ("Untitled " ++ t.text), body := "", sectionId := "", level := none,
    color := if c ∈ colors then c else "gray", group := id m "group", order := orderOf m, legacy := none }

/-- A page; present but malformed pins are the empty map. -/
def pageOf (m : List (String × Json)) (body : String) : Payload :=
  { type := .page, title := (str m "title").getD "", body := body, sectionId := id m "section", level := levelOf m,
    color := "", group := "", order := orderOf m, legacy := (lastValue m "legacy").map pinsOf }

/-- `parsePayload`. -/
def parsePayload (v : Json) : Option Payload := do
  let m ← unmarshal v
  match (str m "type").getD "" with
  | "section" => some (folderOf m .sect)
  | "group" => some (folderOf m .group)
  | _ => (str m "body").map (pageOf m)

/-! ## The wire form -/

/-- A member with `omitempty`. -/
def omitempty (k s : String) : List (String × Json) := if s = "" then [] else [(k, .str s)]

/-- The pins as a JSON object, by ascending key. -/
def pinsJson (legacy : Legacy) : Json :=
  .obj ((legacy.keys.sort (· ≤ ·)).map fun k => (k, .str ((legacy.lookup k).getD "")))

/-- `Payload.wire`: `sectionJSON` or `pageJSON`. -/
def Payload.wire (p : Payload) : Json :=
  match p.type with
  | .page =>
    .obj ([("type", .str "page"), ("title", .str p.title), ("body", .str p.body)] ++ omitempty "section" p.sectionId ++
      omitempty "order" p.order ++ (p.level.map fun (n : Nat) => ("level", Json.num n)).toList ++
      (p.legacy.map fun l => ("legacy", pinsJson l)).toList)
  | t =>
    .obj ([("type", .str t.text), ("title", .str p.title), ("color", .str p.color)] ++ omitempty "order" p.order ++
      omitempty "group" p.group)

end KyNotes.Content
