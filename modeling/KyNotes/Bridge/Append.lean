import KyNotes.Bridge.Markdown
import KyNotes.Document.Stable
import KyNotes.Setup.ImportClient

/-!
# Appending to a page (`cmd/kynotes-mcp/markdown.go`)

A page body is decoded into maps and slices, blocks are added at the end of its document or in a new box below all others,
and the whole is encoded again (`appendBlocks`). What a number of JSON is as a float, and the rounding of a sum, are
parameters.
-/

namespace KyNotes.Bridge.Markdown

open Cleanup.Stored JsonText

/-! ## Maps -/

section Maps

variable {α : Type}

/-- The members of a map that was filled member by member, in the order of their keys. -/
def mapOf (members : List (Text × α)) : List (Text × α) :=
  ((members.map Prod.fst).dedup.mergeSort fun k k' => decide (k ≤ k')).filterMap fun k =>
    (Json.lastValue members k).map fun v => (k, v)

end Maps

mutual

/-- What `marshal` writes of a value that was decoded: the numbers as they were, the strings and the maps anew. -/
def reencode : Tree → Tree
  | .null => .null
  | .bool b => .bool b
  | .num w => .num w
  | .str s => .str (plain (goString s))
  | .arr values => .arr (reencodeValues values)
  | .obj members => .obj ((mapOf (reencodeMembers members)).map fun m => (plain m.1, m.2))

def reencodeValues : List Tree → List Tree
  | [] => []
  | v :: values => reencode v :: reencodeValues values

def reencodeMembers : List (List Item × Tree) → List (Text × Tree)
  | [] => []
  | (k, v) :: members => (goString k, reencode v) :: reencodeMembers members

end

/-- `doc[key] = v`, of a map. -/
def set (members : List (List Item × Tree)) (key : String) (v : Tree) : Tree := .obj (members ++ [member key v])

/-! ## Where a new box goes -/

def maxCoord : ℕ := 100000

def maxBoxes : ℕ := 500

/-- `float64`: the value of a literal, and the rounding of an exact result. -/
structure Floats where
  read : List ℕ → Js.Num
  round : ℚ → Js.Num

section Bottom

variable (F : Floats)

/-- `num`. -/
def num : Option Tree → Js.Num
  | some (.num w) => F.read w
  | _ => .finite 0

def add : Js.Num → ℚ → Js.Num
  | .finite x, y => F.round (x + y)
  | .infinite negative, _ => .infinite negative

/-- `max`, of floats. -/
def larger : Js.Num → Js.Num → Js.Num
  | .infinite false, _ | _, .infinite false => .infinite false
  | .infinite true, y => y
  | x, .infinite true => x
  | .finite x, .finite y => .finite (max x y)

/-- `countBlocks`. -/
def countBlocks : List Tree → ℕ
  | [] => 0
  | block :: blocks =>
    1 + (if _h : list (get block "children") = [] then 0 else countBlocks (list (get block "children"))) + countBlocks blocks
termination_by blocks => sizeOf blocks
decreasing_by
  · have := sizeOf_list _h
    simp only [List.cons.sizeOf_spec]
    omega
  · simp only [List.cons.sizeOf_spec]
    omega

/-- The second of every three points; the last may lack its third. -/
def everyY : List Tree → List Tree
  | _ :: y :: _ :: points => y :: everyY points
  | [_, y] => [y]
  | _ => []

/-- `int(min(bottom+48, maxCoord))`; `bottom` is not negative. -/
def belowBottom : Js.Num → ℕ
  | .finite x => (min x maxCoord).floor.toNat
  | .infinite _ => maxCoord

/-- `canvasBottom`. -/
def canvasBottom (doc : Tree) : ℕ :=
  let ends := (list (get doc "boxes")).map fun box =>
    add F (num F (get box "y")) (48 * countBlocks (list (get box "blocks")))
  let ys := (list (get doc "strokes")).flatMap fun stroke => (everyY (list (get stroke "points"))).map fun y => num F (some y)
  belowBottom (add F ((ends ++ ys).foldl larger (.finite 0)) 48)

end Bottom

/-! ## Appending -/

inductive AppendError
  | oldFormat
  | fullCanvas
deriving DecidableEq

/-- The number of a small integer. -/
def intTree (n : ℕ) : Tree := .num (Document.wholeText n)

/-- `"mcp-" + hex.EncodeToString(id)`. -/
def boxId (id : Bytes) : Text := "mcp-".toList ++ (Setup.hexString id).toList

/-- The box of new blocks. -/
def boxTree (id : Bytes) (y : ℕ) (blocks : List Block) : Tree :=
  .obj [member "id" (textTree (boxId id)), member "x" (intTree 0), member "y" (intTree y), member "width" (intTree 640),
    member "blocks" (.arr (blocks.map Block.tree))]

/-- `appendBlocks`, with the random bytes. -/
def appendBlocks (F : Floats) (id : Bytes) (body : Text) (blocks : List Block) : Except AppendError Text :=
  if body = [] then .ok (newPageBody blocks)
  else match decodeJSON body with
    | some (.obj members) =>
      let doc := Tree.obj members
      if str (get doc "format") = blocknoteFormat.toList then
        match get doc "document" with
        | some (.arr existing) => .ok (marshal (reencode (set members "document" (.arr (existing ++ blocks.map Block.tree)))))
        | _ => .error .oldFormat
      else if str (get doc "format") = canvasFormat.toList then
        let boxes := list (get doc "boxes")
        if maxBoxes ≤ boxes.length then .error .fullCanvas
        else .ok (marshal (reencode (set members "boxes" (.arr (boxes ++ [boxTree id (canvasBottom F doc) blocks])))))
      else .error .oldFormat
    | _ => .error .oldFormat

end KyNotes.Bridge.Markdown
