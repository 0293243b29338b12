import KyNotes.Document.Legacy

/-!
# Pages (`web/src/document.ts`)

A page body is opened as a canvas, of which what is no box or stroke is dropped and every number is brought within its
bounds; the bodies of the two formats before it, and texts, become one box. `stringifyCanvasPage` is what is saved.
-/

namespace KyNotes.Document

open Js
open Web (JsString)

def noteFormat : JsString := Utf16.ofText "kynotes.blocknote.v1"

def canvasFormat : JsString := Utf16.ofText "kynotes.canvas.v1"

/-- `LEGACY_BOX`. -/
def legacyBox : JsString := Utf16.ofText "legacy"

/-- `MAX_COORD`. -/
def maxCoord : ℚ := 100000

/-- `MAX_BOXES`. -/
def maxBoxes : ℕ := 500

/-- `MAX_STROKES`. -/
def maxStrokes : ℕ := 5000

/-- `MAX_STROKE_POINTS`. -/
def maxStrokePoints : ℕ := 10000

/-- `BOX_MIN_WIDTH`. -/
def boxMinWidth : ℚ := 160

/-- `BOX_MAX_WIDTH`. -/
def boxMaxWidth : ℚ := 2000

/-- `DEFAULT_BOX_WIDTH`. -/
def defaultBoxWidth : ℚ := 640

inductive InkColor | ink | blue | red | green | orange | yellow
deriving DecidableEq

def InkColor.name : InkColor → JsString
  | .ink => Utf16.ofText "ink"
  | .blue => Utf16.ofText "blue"
  | .red => Utf16.ofText "red"
  | .green => Utf16.ofText "green"
  | .orange => Utf16.ofText "orange"
  | .yellow => Utf16.ofText "yellow"

/-- `INK_COLORS`. -/
def inkColors : List InkColor := [.ink, .blue, .red, .green, .orange, .yellow]

inductive Tool | pen | highlighter
deriving DecidableEq

def Tool.name : Tool → JsString
  | .pen => Utf16.ofText "pen"
  | .highlighter => Utf16.ofText "highlighter"

structure CanvasBox where
  id : JsString
  x : ℚ
  y : ℚ
  width : ℚ
  blocks : List Value

/-- `points` is flat: x, y and pressure. -/
structure CanvasStroke where
  id : JsString
  tool : Tool
  color : InkColor
  size : ℚ
  points : List ℚ

structure CanvasPage where
  boxes : List CanvasBox
  strokes : List CanvasStroke

/-! ## Boxes and strokes -/

/-- The class of `ITEM_ID`. -/
def isIdUnit (u : UInt16) : Bool :=
  65 ≤ u.toNat ∧ u.toNat ≤ 90 ∨ 97 ≤ u.toNat ∧ u.toNat ≤ 122 ∨ 48 ≤ u.toNat ∧ u.toNat ≤ 57 ∨ u.toNat = 45

/-- `ITEM_ID.test`. -/
def isItemId (s : JsString) : Bool := 1 ≤ s.length ∧ s.length ≤ 64 ∧ s.all isIdUnit

/-- The ID of a record that has one. -/
def itemId (value : Value) : Option JsString := (stringProp "id" value).filter isItemId

/-- The elements of an array; none of what is no array. -/
def elements : Option Value → List Value
  | some (.arr vs) => vs
  | _ => []

/-- `Number.isFinite`, of a number. -/
def finiteOf : Option Value → Option ℚ
  | some (.num (.finite x)) => some x
  | _ => none

def clamp (value : Option Value) (min max fallback : ℚ) : ℚ :=
  match finiteOf value with
  | some x => Min.min max (Max.max min x)
  | none => fallback

/-- The document of `emptyNoteDocument`. -/
def emptyDocument : List Value := [emptyParagraph]

/-- `parseBox`. BlockNote refuses an empty initial document. -/
def parseBox (value : Value) : Option CanvasBox :=
  (itemId value).map fun id =>
    let blocks := (elements (prop "blocks" value)).filter isRecord
    { id
      x := clamp (prop "x" value) 0 maxCoord 0
      y := clamp (prop "y" value) 0 maxCoord 0
      width := clamp (prop "width" value) boxMinWidth boxMaxWidth defaultBoxWidth
      blocks := if blocks = [] then emptyDocument else blocks }

/-- The points of three numbers each; three that are not finite are left out. -/
def pointsOf : List Value → List ℚ
  | x :: y :: p :: raw =>
    (if (finiteOf x).isSome ∧ (finiteOf y).isSome ∧ (finiteOf p).isSome then
      [clamp x 0 maxCoord 0, clamp y 0 maxCoord 0, clamp p 0 1 (1 / 2)] else []) ++ pointsOf raw
  | _ => []

def inkColor (value : Option JsString) : InkColor := (inkColors.find? fun c => value = some c.name).getD .ink

def parseStroke (value : Value) : Option CanvasStroke :=
  match itemId value, prop "points" value with
  | some id, some (.arr raw) =>
    let points := pointsOf (raw.take (maxStrokePoints * 3))
    if points = [] then none
    else some
      { id
        tool := if stringProp "tool" value = some Tool.highlighter.name then .highlighter else .pen
        color := inkColor (stringProp "color" value)
        size := clamp (prop "size" value) 1 64 4
        points }
  | _, _ => none

section Items

variable {α : Type} (id : α → JsString) (parse : Value → Option α)

def addItem (items : List α) (entry : Value) : List α :=
  match parse entry with
  | some item => if items.any fun i => id i = id item then items else items ++ [item]
  | none => items

def parseItems (list : Option Value) (max : ℕ) : List α := ((elements list).take max).foldl (addItem id parse) []

end Items

/-! ## Pages -/

section Pages

variable (N : Numbers)

/-- `legacyTiptapDocument`. -/
def legacyTiptapDocument (body : JsString) : Option (List Value) := (parse N body).bind (legacyTiptap N)

/-- The document of a body of the note format. -/
def noteDocument (value : Value) : Option (List Value) :=
  if stringProp "format" value = some noteFormat then
    match prop "document" value with
    | some (.arr document) => some document
    | _ => none
  else none

/-- The document of `parseNoteDocument`. -/
def parseNoteDocument (body : JsString) : List Value :=
  match (parse N body).bind noteDocument with
  | some document => document
  | none =>
    match legacyTiptapDocument N body with
    | some legacy => if legacy = [] then emptyDocument else legacy
    | none => if body = [] then emptyDocument else [object [("type", literal "paragraph"), ("content", .str body)]]

def isStructuredNoteBody (body : JsString) : Bool :=
  ((parse N body).any fun value => (noteDocument value).isSome || stringProp "format" value == some canvasFormat) ||
    (legacyTiptapDocument N body).isSome

/-- What `openPage` returns. -/
structure OpenedPage extends CanvasPage where
  legacyMarkdown : Option JsString

/-- A body of the canvas format. -/
def canvasValue (body : JsString) : Option Value :=
  (parse N body).filter fun value => stringProp "format" value == some canvasFormat

def openPage (body : JsString) : OpenedPage :=
  match canvasValue N body with
  | some value =>
    { boxes := parseItems CanvasBox.id parseBox (prop "boxes" value) maxBoxes
      strokes := parseItems CanvasStroke.id parseStroke (prop "strokes" value) maxStrokes
      legacyMarkdown := none }
  | none =>
    { boxes := [{ id := legacyBox, x := 0, y := 0, width := defaultBoxWidth, blocks := parseNoteDocument N body }]
      strokes := []
      legacyMarkdown := if body ≠ [] ∧ isStructuredNoteBody N body = false then some body else none }

def numbers (xs : List ℚ) : Value := .arr (xs.map fun x => .num (.finite x))

def CanvasBox.value (b : CanvasBox) : Value :=
  object [("id", .str b.id), ("x", .num (.finite b.x)), ("y", .num (.finite b.y)), ("width", .num (.finite b.width)),
    ("blocks", .arr b.blocks)]

def CanvasStroke.value (s : CanvasStroke) : Value :=
  object [("id", .str s.id), ("tool", .str s.tool.name), ("color", .str s.color.name), ("size", .num (.finite s.size)),
    ("points", numbers s.points)]

def CanvasPage.value (p : CanvasPage) : Value :=
  object [("format", .str canvasFormat), ("boxes", .arr (p.boxes.map CanvasBox.value)),
    ("strokes", .arr (p.strokes.map CanvasStroke.value))]

def stringifyCanvasPage (p : CanvasPage) : JsString := stringify N p.value

end Pages

end KyNotes.Document
