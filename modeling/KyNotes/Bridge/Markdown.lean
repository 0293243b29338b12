import KyNotes.Cleanup.SlotText
import KyNotes.Lib.Json

/-!
# Markdown of the bridge (`cmd/kynotes-mcp/markdown.go`)

A page body is read as Markdown (`pageMarkdown`), and Markdown is written as blocks (`markdownBlocks`, `newPageBody`). A text is its
characters, as everything here is valid UTF-8. What a canvas and what an older format read as is a parameter, as is the number
that a text of JSON stands for.
-/

namespace KyNotes.Bridge.Markdown

open Cleanup.Stored JsonText

abbrev Text := List Char

/-! ## JSON -/

/-- A character, without the escapes of HTML. -/
def plainItem (c : Char) : Item :=
  if (shortOf.lookup c.toNat).isSome then .char c.toNat
  else if c.toNat < 0x20 ∨ c = '\u2028' ∨ c = '\u2029' then .unit c.toNat
  else .char c.toNat

def plain (s : Text) : List Item := s.map plainItem

/-- `marshal`. -/
def marshal (t : Tree) : Text := t.print.map Char.ofNat

/-- `d.More()` is false: the text ends, or a bracket follows that would close something. -/
def stops (rest : Text) : Bool :=
  match rest.dropWhile fun c => JsonText.isSpace c.toNat with
  | [] => true
  | c :: _ => c = ']' ∨ c = '}'

mutual

/-- How deep arrays and objects are nested. -/
def nesting : Tree → ℕ
  | .arr values => nestingOfValues values + 1
  | .obj members => nestingOfMembers members + 1
  | _ => 0

def nestingOfValues : List Tree → ℕ
  | [] => 0
  | v :: values => max (nesting v) (nestingOfValues values)

def nestingOfMembers : List (List Item × Tree) → ℕ
  | [] => 0
  | (_, v) :: members => max (nesting v) (nestingOfMembers members)

end

/-- `maxNestingDepth` of `encoding/json`. -/
def maxNesting : ℕ := 10000

/-- `decodeJSON`: the value of the longest beginning that is one. Of two that are, the shorter has only spaces less. -/
def decodeJSON (s : Text) : Option Tree :=
  ((List.range (s.length + 1)).reverse.findSome? fun n =>
    if stops (s.drop n) then parse ((s.take n).map Char.toNat) else none).filter fun t => nesting t ≤ maxNesting

/-- `v[k]`; nothing also where `v` is no map. -/
def get (v : Tree) (k : String) : Option Tree :=
  match v with
  | .obj members => Json.lastValue (members.map fun m => (goString m.1, m.2)) k.toList
  | _ => none

/-- `v.(string)`, or `""`. -/
def str : Option Tree → Text
  | some (.str s) => goString s
  | _ => []

/-- `v.([]any)`, or none of it. -/
def list : Option Tree → List Tree
  | some (.arr values) => values
  | _ => []

theorem sizeOf_get {v t : Tree} {k : String} (h : get v k = some t) : sizeOf t < sizeOf v := by
  cases v with
  | obj members =>
    obtain ⟨m, hm, hmt⟩ := List.mem_map.mp (Json.lastValue_mem h)
    obtain rfl : m.2 = t := congrArg Prod.snd hmt
    have hlt := List.sizeOf_lt_of_mem hm
    obtain ⟨key, t⟩ := m
    simp only [Prod.mk.sizeOf_spec, Tree.obj.sizeOf_spec] at hlt ⊢
    omega
  | _ => cases h

theorem sizeOf_list {v : Tree} {k : String} (h : list (get v k) ≠ []) : sizeOf (list (get v k)) < sizeOf v := by
  cases hget : get v k with
  | none => rw [hget] at h; exact absurd rfl h
  | some t =>
    have hlt := sizeOf_get hget
    cases t with
    | arr values =>
      rw [Tree.arr.sizeOf_spec] at hlt
      exact Nat.lt_trans (Nat.lt_add_of_pos_left Nat.one_pos) hlt
    | _ => rw [hget] at h; exact absurd rfl h

/-! ## Reading -/

/-- `strings.ReplaceAll(s, "\n", new)`. -/
def replaceLines (s new : Text) : Text := s.flatMap fun c => if c = '\n' then new else [c]

def indentRest (s : Text) : Text := replaceLines s "\n  ".toList

mutual

/-- `inline`. -/
def inline : Tree → Text
  | .str s => goString s
  | .arr items => inlineItems items
  | _ => []
termination_by v => sizeOf v

def inlineItems : List Tree → Text
  | [] => []
  | node :: items =>
    (if str (get node "type") = "link".toList then
      '[' :: (match _h : get node "content" with
        | some content => inline content
        | none => []) ++ "](".toList ++ str (get node "href") ++ [')']
    else str (get node "text")) ++ inlineItems items
termination_by items => sizeOf items
decreasing_by
  · have := sizeOf_get _h
    simp only [List.cons.sizeOf_spec]
    omega
  · simp only [List.cons.sizeOf_spec]
    omega

end

def inlineOf (v : Option Tree) : Text := (v.map inline).getD []

/-- `table`: one row a line. -/
def table (content : Option Tree) : Text :=
  let cellText := fun cell : Tree =>
    replaceLines (match cell with
      | .obj _ => inlineOf (get cell "content")
      | c => inline c) [' ']
  let rowText := fun row : Tree => "| ".toList ++ " | ".toList.intercalate ((list (get row "cells")).map cellText) ++ " |".toList
  ['\n'].intercalate ((list (content.bind fun c => get c "rows")).map rowText)

def isListItem (t : Text) : Bool :=
  t = "bulletListItem".toList ∨ t = "numberedListItem".toList ∨ t = "checkListItem".toList

section
-- `int(num(v))` of a number as it is written, and what canvases and other bodies read as
variable (int : List ℕ → ℤ) (canvas other : Tree → Text)

/-- A block without its children; `number` is its place in a numbered list. -/
def blockText (number : ℕ) (block : Tree) : Text :=
  let t := str (get block "type")
  let props := fun k => (get block "props").bind fun p => get p k
  let text := inlineOf (get block "content")
  if t = "heading".toList then
    let level := match props "level" with
      | some (.num w) => int w
      | _ => 0
    List.replicate (min (max level 1) 6).toNat '#' ++ ' ' :: text
  else if t = "bulletListItem".toList then "- ".toList ++ indentRest text
  else if t = "numberedListItem".toList then (toString number).toList ++ ". ".toList ++ indentRest text
  else if t = "checkListItem".toList then
    "- ".toList ++ (match props "checked" with
      | some (.bool true) => "[x]".toList
      | _ => "[ ]".toList) ++ ' ' :: indentRest text
  else if t = "quote".toList then "> ".toList ++ replaceLines text "\n> ".toList
  else if t = "codeBlock".toList then
    "```".toList ++ (str (props "language")).filter (fun c => c ≠ '\n' ∧ c ≠ Char.ofNat 96) ++ '\n' :: text ++ "\n```".toList
  else if t = "table".toList then table (get block "content")
  else if text = [] ∧ str (props "name") ≠ [] then '[' :: str (props "name") ++ [']']
  else text

/-- What stands between a block and the one before it. -/
def separator (out prev t : Text) : Text :=
  if out = [] then [] else if isListItem t ∧ isListItem prev then ['\n'] else ['\n', '\n']

/-- The loop of `blocksMarkdown`. -/
def blocksLoop (out : Text) (number : ℕ) (prev : Text) : List Tree → Text
  | [] => out
  | .obj members :: blocks =>
    let t := str (get (.obj members) "type")
    let number := if t = "numberedListItem".toList then number + 1 else 0
    let out := out ++ separator out prev t ++ blockText int number (.obj members)
    let out := if _h : list (get (.obj members) "children") = [] then out
      else out ++ "\n  ".toList ++ indentRest (blocksLoop [] 0 [] (list (get (.obj members) "children")))
    blocksLoop out number t blocks
  | _ :: blocks => blocksLoop out number prev blocks
termination_by blocks => sizeOf blocks
decreasing_by
  · have := sizeOf_list _h
    simp only [List.cons.sizeOf_spec]
    omega
  · simp only [List.cons.sizeOf_spec]
    omega
  · simp only [List.cons.sizeOf_spec]
    omega

def blocksMarkdown (blocks : List Tree) : Text := blocksLoop int [] 0 [] blocks

def blocknoteFormat : String := "kynotes.blocknote.v1"

def canvasFormat : String := "kynotes.canvas.v1"

def pageMarkdown (body : Text) : Text :=
  match decodeJSON body with
  | none => body
  | some v =>
    if str (get v "format") = canvasFormat.toList then canvas v
    else if str (get v "format") = blocknoteFormat.toList then
      match get v "document" with
      | some (.arr blocks) => blocksMarkdown int blocks
      | _ => other v
    else other v

end

/-! ## Writing -/

/-- What `markdownBlocks` makes. -/
inductive Block
  | paragraph (text : Text)
  | check (checked : Bool) (text : Text)
deriving DecidableEq

/-- `\s` of a regular expression. -/
def isBlankChar (c : Char) : Bool := c = ' ' ∨ c = '\t' ∨ c = '\n' ∨ c = '\x0c' ∨ c = '\r'

/-- The mark and the text of a checklist line. -/
def checkLine (line : Text) : Option (Char × Text) :=
  match line.dropWhile isBlankChar with
  | bullet :: ' ' :: '[' :: mark :: ']' :: rest =>
    if (bullet = '-' ∨ bullet = '*') ∧ (mark = ' ' ∨ mark = 'x' ∨ mark = 'X') then
      some (mark, if rest.head? = some ' ' then rest.tail else rest)
    else none
  | _ => none

/-- `strings.TrimSpace(line) == ""`. -/
def blank (line : Text) : Bool := line.all Cleanup.Stored.isSpace

def flush (para : List Text) : List Block := if para = [] then [] else [.paragraph (['\n'].intercalate para)]

/-- The lines, with those of the paragraph so far. -/
def blocksOf (para : List Text) : List Text → List Block
  | [] => flush para
  | line :: lines =>
    match checkLine line with
    | some (mark, text) => flush para ++ .check (mark ≠ ' ') text :: blocksOf [] lines
    | none => if blank line then flush para ++ blocksOf [] lines else blocksOf (para ++ [line]) lines

/-- `strings.ReplaceAll(md, "\r\n", "\n")`. -/
def replaceCRLF : Text → Text
  | '\r' :: '\n' :: s => '\n' :: replaceCRLF s
  | c :: s => c :: replaceCRLF s
  | [] => []

def markdownBlocks (md : Text) : List Block := blocksOf [] ((replaceCRLF md).splitOn '\n')

def textTree (s : Text) : Tree := .str (plain s)

def member (key : String) (v : Tree) : List Item × Tree := (plain key.toList, v)

/-- `text`. -/
def contentTree (s : Text) : Tree :=
  .arr [.obj [member "styles" (.obj []), member "text" (textTree s), member "type" (textTree "text".toList)]]

def Block.tree : Block → Tree
  | .paragraph s => .obj [member "content" (contentTree s), member "type" (textTree "paragraph".toList)]
  | .check checked s =>
    .obj [member "content" (contentTree s), member "props" (.obj [member "checked" (.bool checked)]),
      member "type" (textTree "checkListItem".toList)]

/-- The document of the blocks; of none, an empty paragraph. -/
def documentTree (blocks : List Block) : Tree :=
  .obj [member "document" (.arr (if blocks = [] then
      [.obj [member "content" (textTree []), member "type" (textTree "paragraph".toList)]]
    else blocks.map Block.tree)),
    member "format" (textTree blocknoteFormat.toList)]

def newPageBody (blocks : List Block) : Text := marshal (documentTree blocks)

end KyNotes.Bridge.Markdown
