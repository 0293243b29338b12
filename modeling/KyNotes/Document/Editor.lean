import KyNotes.Document.Canvas
import KyNotes.Lib.Run

/-!
# The page editor (`web/src/CanvasPage.tsx`)

An editor opens a body and then answers events: edits of the text boxes, dragging, ink, the eraser, undo and redo, in any order and
with any pointer. What it shows is a page that may be saved, and every body it saves opens as the page it then shows
(`saved_opens_as_shown`). Undoing and redoing walk along the ink there was (`walk_ink`).

Arrays of strokes and pages are compared by reference, so that each carries which one it is.
-/

namespace KyNotes.Document

open Js Transition
open Web (JsString)

/-! ## The undo history -/

section History

variable {α : Type}

/-- `History`, of which the last of each list is the next to be taken. -/
structure History (α : Type) where
  past : List α := []
  future : List α := []

/-- The most states that are kept. -/
def historyLength : ℕ := 100

def History.push (h : History α) (state : α) : History α where
  past := if (h.past ++ [state]).length > historyLength then (h.past ++ [state]).drop 1 else h.past ++ [state]
  future := []

def History.undo (h : History α) (current : α) : Option (α × History α) :=
  match h.past.getLast? with
  | some previous => some (previous, { past := h.past.dropLast, future := h.future ++ [current] })
  | none => none

def History.redo (h : History α) (current : α) : Option (α × History α) :=
  match h.future.getLast? with
  | some next => some (next, { past := h.past ++ [current], future := h.future.dropLast })
  | none => none

/-- All states in their order. -/
def History.timeline (h : History α) (current : α) : List α := h.past ++ current :: h.future.reverse

theorem History.timeline_place (h : History α) (current : α) : (h.timeline current)[h.past.length]? = some current := by
  rw [History.timeline, List.getElem?_append_right (le_refl _), Nat.sub_self, List.getElem?_cons_zero]

/-- Undoing moves the place back, and leaves the timeline. -/
theorem History.undo_spec {h h' : History α} {current previous : α} (hu : h.undo current = some (previous, h')) :
    h'.timeline previous = h.timeline current ∧ h'.past.length + 1 = h.past.length := by
  unfold History.undo at hu
  split at hu
  · next last hlast =>
    cases hu
    obtain ⟨past, hpast⟩ := List.getLast?_eq_some_iff.mp hlast
    simp [History.timeline, hpast]
  · cases hu

theorem History.undo_none {h : History α} {current : α} (hu : h.undo current = none) : h.past.length = 0 := by
  unfold History.undo at hu
  split at hu
  · cases hu
  · next hlast => rw [List.getLast?_eq_none_iff.mp hlast, List.length_nil]

/-- Redoing moves the place on. -/
theorem History.redo_spec {h h' : History α} {current next : α} (hr : h.redo current = some (next, h')) :
    h'.timeline next = h.timeline current ∧ h'.past.length = h.past.length + 1 := by
  unfold History.redo at hr
  split at hr
  · next last hlast =>
    cases hr
    obtain ⟨future, hfuture⟩ := List.getLast?_eq_some_iff.mp hlast
    simp [History.timeline, hfuture]
  · cases hr

theorem History.redo_none {h : History α} {current : α} (hr : h.redo current = none) :
    (h.timeline current).length = h.past.length + 1 := by
  unfold History.redo at hr
  split at hr
  · cases hr
  · next hlast => simp [History.timeline, List.getLast?_eq_none_iff.mp hlast]

theorem History.getLast_push (h : History α) (state : α) : (h.push state).past.getLast? = some state := by
  rw [History.push]
  dsimp only
  split
  · next hlength =>
    cases hpast : h.past with
    | nil =>
      rw [hpast] at hlength
      exact absurd hlength (Nat.not_lt.mpr (by decide : 1 ≤ historyLength))
    | cons a past =>
      rw [List.cons_append, List.drop_succ_cons, List.drop_zero, List.getLast?_append_of_ne_nil _ (List.cons_ne_nil _ _)]
      rfl
  · rw [List.getLast?_append_of_ne_nil _ (List.cons_ne_nil _ _)]
    rfl

/-- The states that are kept. -/
def History.states (h : History α) : List α := h.past ++ h.future

theorem History.mem_push {h : History α} {state a : α} (ha : a ∈ (h.push state).states) : a ∈ h.states ∨ a = state := by
  have hpast : a ∈ h.past ++ [state] := by
    rw [History.states, History.push, List.append_nil] at ha
    dsimp only at ha
    split at ha
    · exact List.mem_of_mem_drop ha
    · exact ha
  rcases List.mem_append.mp hpast with h | h
  · exact .inl (List.mem_append_left _ h)
  · exact .inr (List.mem_singleton.mp h)

theorem History.mem_timeline {h : History α} {current a : α} : a ∈ h.timeline current ↔ a ∈ h.states ∨ a = current := by
  simp only [History.timeline, History.states, List.mem_append, List.mem_cons, List.mem_reverse]
  tauto

end History

/-! ## The state of an editor -/

/-- The tool of the toolbar. -/
inductive PageTool | type | pen | highlighter | eraser
deriving DecidableEq

inductive DragMode | move | resize
deriving DecidableEq

/-- An array of strokes, and which one it is. -/
structure Strokes where
  ref : ℕ
  list : List CanvasStroke

/-- A page, and which one it is. -/
structure Shown where
  ref : ℕ
  boxes : List CanvasBox
  strokes : Strokes

def Shown.page (s : Shown) : CanvasPage where
  boxes := s.boxes
  strokes := s.strokes.list

/-- What is dragged: a box as it was, from where, on which page. -/
structure Drag where
  id : JsString
  mode : DragMode
  px : ℚ
  py : ℚ
  x : ℚ
  y : ℚ
  width : ℚ
  start : ℕ

/-- `objects` is more than every reference so far. -/
structure Editor where
  page : Shown
  objects : ℕ := 2
  tool : PageTool := .type
  color : InkColor := .ink
  sizeIndex : Fin 3 := 1
  draft : Option (List ℚ) := none
  eraseStart : Option Strokes := none
  penSeen : Bool := false
  drag : Option Drag := none
  activePointer : Option ℤ := none
  history : History Strokes := {}
  editable : Bool := true

/-- What the editor reports: a body to save, or a message. -/
inductive Report
  | changed (body : JsString)
  | failed (message : String)

/-- `PAGE_FULL`. -/
def pageFull : String := "This page is full. Start a new page for more ink."

def boxesFull : String := "This page has the maximum number of text boxes."

/-- `ERASER_RADIUS`. -/
def eraserRadius : ℚ := 10

/-- `SIZES`. -/
def strokeSize (tool : PageTool) (sizeIndex : Fin 3) : ℚ :=
  match tool with
  | .highlighter => [12, 20, 28].get sizeIndex
  | .type | .pen | .eraser => [2, 4, 8].get sizeIndex

section Values

variable (A : Arithmetic)

/-- A number of an event. -/
abbrev Double := {x : ℚ // A.IsNumber x}

/-- The blocks of a text editor. -/
abbrev Blocks := {vs : List Value // ValuesWF A.toNumbers vs}

/-- An ID of `crypto.randomUUID`. -/
abbrev Uuid := {s : JsString // isItemId s = true}

/-- A point of a pointer, with what `pressureOf` makes of its pressure. -/
structure Sample where
  x : Double A
  y : Double A
  pressure : Double A

inductive PointerType | mouse | pen | touch
deriving DecidableEq

inductive Key | left | right | up | down | other
deriving DecidableEq

/-- What happens to an editor. -/
inductive Event
  | change (id : JsString) (blocks : Blocks A)
  | hydrated (id : JsString) (blocks : Blocks A)
  | startDrag (id : JsString) (mode : DragMode) (button : ℕ) (px py : Double A)
  | dragMove (px py : Double A)
  | endDrag
  | nudge (id : JsString) (key : Key) (shift : Bool)
  | undo
  | redo
  | inkDown (type : PointerType) (button : ℕ) (pointer : ℤ) (sample : Sample A)
  | inkMove (pointer : ℤ) (x y : Double A) (samples : List (Sample A))
  | inkUp (pointer : ℤ) (uuid : Uuid)
  | surfaceClick (narrow : Bool) (x y : Double A) (view : Option View) (uuid : Uuid)
  | drop (x y : Double A) (block : Blocks A) (view : Option View) (uuid : Uuid)
  | addText (block : Option (Blocks A)) (heights : JsString → Option ℚ) (view : Option View) (uuid : Uuid)
  | setTool (tool : PageTool)
  | setColor (color : InkColor)
  | setSize (index : Fin 3)
  | setEditable (editable : Bool)

end Values

/-! ## The handlers -/

namespace Editor

variable (A : Arithmetic)

/-- A page with other boxes. -/
def withBoxes (s : Editor) (boxes : List CanvasBox) : Shown := { s.page with ref := s.objects, boxes }

/-- A page with another array of strokes. -/
def withStrokes (s : Editor) (strokes : Strokes) : Shown := { s.page with ref := s.objects, strokes }

/-- An array of strokes that there was not. -/
def newStrokes (s : Editor) (list : List CanvasStroke) : Strokes := { ref := s.objects + 1, list }

/-- `show`. -/
def shows (s : Editor) (next : Shown) : Editor := { s with page := next }

/-- Shows and emits a change; `guard` refuses growth past the page byte limit. -/
def commit (s : Editor) (next : Shown) (guard : Bool) : Bool × Editor × Option Report :=
  if !s.editable then (false, s, none)
  else
    let serialized := stringifyCanvasPage A.toNumbers next.page
    if guard && !pageFits serialized then (false, s, some (.failed pageFull))
    else (true, s.shows next, some (.changed serialized))

def updated (s : Editor) (id : JsString) (change : BoxChange) : Shown := s.withBoxes (updateBox s.page.page id change).boxes

def change (s : Editor) (id : JsString) (blocks : List Value) : Editor × Option Report :=
  (commit A s (s.updated id { blocks := some blocks }) false).2

/-- Parsed legacy markdown replaces the raw paragraph; it is not saved until the next edit. -/
def hydrated (s : Editor) (id : JsString) (blocks : List Value) : Editor × Option Report :=
  (s.shows (s.updated id { blocks := some blocks }), none)

def startDrag (s : Editor) (id : JsString) (mode : DragMode) (button : ℕ) (px py : ℚ) : Editor × Option Report :=
  if !s.editable then (s, none)
  else
    match s.page.boxes.find? fun entry => entry.id = id with
    | none => (s, none)
    | some box =>
      if button ≠ 0 then (s, none)
      else ({ s with drag := some { id, mode, px, py, x := box.x, y := box.y, width := box.width, start := s.page.ref } }, none)

def dragMove (s : Editor) (px py : ℚ) : Editor × Option Report :=
  if !s.editable then (s, none)
  else
    match s.drag with
    | none => (s, none)
    | some d =>
      let dx := A.nearest (px - d.px)
      let dy := A.nearest (py - d.py)
      let change : BoxChange :=
        match d.mode with
        | .move => { x := some (.finite (A.nearest (d.x + dx))), y := some (.finite (A.nearest (d.y + dy))) }
        | .resize => { width := some (.finite (A.nearest (d.width + dx))) }
      (s.shows (s.updated d.id change), none)

def endDrag (s : Editor) : Editor × Option Report :=
  match s.drag with
  | none => (s, none)
  | some d =>
    let s := { s with drag := none }
    if s.page.ref ≠ d.start then (commit A s s.page false).2 else (s, none)

def nudge (s : Editor) (id : JsString) (key : Key) (shift : Bool) : Editor × Option Report :=
  if !s.editable then (s, none)
  else
    let step : ℚ := if shift then 50 else 10
    let delta : Option (ℚ × ℚ) :=
      match key with
      | .left => some (-step, 0)
      | .right => some (step, 0)
      | .up => some (0, -step)
      | .down => some (0, step)
      | .other => none
    match delta, s.page.boxes.find? fun entry => entry.id = id with
    | some (dx, dy), some box =>
      (commit A s (s.updated id { x := some (.finite (A.nearest (box.x + dx))), y := some (.finite (A.nearest (box.y + dy))) })
        false).2
    | _, _ => (s, none)

def undo (s : Editor) : Editor × Option Report :=
  if !s.editable then (s, none)
  else
    match s.history.undo s.page.strokes with
    | some (previous, history) => (commit A { s with history } (s.withStrokes previous) false).2
    | none => (s, none)

def redo (s : Editor) : Editor × Option Report :=
  if !s.editable then (s, none)
  else
    match s.history.redo s.page.strokes with
    | some (next, history) => (commit A { s with history } (s.withStrokes next) false).2
    | none => (s, none)

/-- `eraseAt` gives the same array where it erased nothing. -/
def erase (s : Editor) (x y : ℚ) : Editor :=
  let kept := eraseAt A s.page.strokes.list x y eraserRadius
  if kept.length = s.page.strokes.list.length then s else s.shows (s.withStrokes (s.newStrokes kept))

/-- The point of a sample. -/
def point {A : Arithmetic} (sample : Sample A) : List ℚ := [round sample.x.val, round sample.y.val, sample.pressure.val]

/-- Touches do not draw once a pen is in use. -/
def inkDown (s : Editor) (type : PointerType) (button : ℕ) (pointer : ℤ) (sample : Sample A) : Editor × Option Report :=
  if !s.editable then (s, none)
  else if type = .touch ∧ s.penSeen then (s, none)
  else
    let s := { s with penSeen := s.penSeen || type = .pen }
    if button ≠ 0 ∨ s.activePointer.isSome then (s, none)
    else
      let s := { s with activePointer := some pointer }
      if s.tool = .eraser then
        (erase A { s with eraseStart := some s.page.strokes } sample.x.val sample.y.val, none)
      else ({ s with draft := some (point sample) }, none)

/-- The draft with further points, as many as a stroke may have. -/
def extend (points : List ℚ) : List (Sample A) → List ℚ
  | [] => points
  | sample :: samples => if points.length ≥ maxStrokePoints * 3 then points else extend (points ++ point sample) samples

def inkMove (s : Editor) (pointer : ℤ) (x y : ℚ) (samples : List (Sample A)) : Editor × Option Report :=
  if s.activePointer ≠ some pointer then (s, none)
  else if s.eraseStart.isSome then (erase A s x y, none)
  else
    match s.draft with
    | none => (s, none)
    | some points => ({ s with draft := some (extend A points samples) }, none)

/-- A change to the ink that is kept in the history if it was made. -/
def commitInk (s : Editor) (next : Shown) (before : Strokes) (guard : Bool) : Editor × Option Report :=
  match commit A s next guard with
  | (true, s, report) => ({ s with history := s.history.push before }, report)
  | (false, s, report) => (s, report)

def stroke (s : Editor) (uuid : JsString) (points : List ℚ) : CanvasStroke where
  id := uuid
  tool := if s.tool = .highlighter then .highlighter else .pen
  color := s.color
  size := strokeSize s.tool s.sizeIndex
  points := points

/-- A stroke of the drawn points. -/
def draw (s : Editor) (uuid : JsString) (points : List ℚ) : Editor × Option Report :=
  if s.page.strokes.list.length ≥ maxStrokes then (s, some (.failed pageFull))
  else
    let strokes := s.newStrokes (s.page.strokes.list ++ [s.stroke uuid points])
    commitInk A s (s.withStrokes strokes) s.page.strokes true

def inkUp (s : Editor) (pointer : ℤ) (uuid : JsString) : Editor × Option Report :=
  if s.activePointer ≠ some pointer then (s, none)
  else
    let s := { s with activePointer := none }
    match s.eraseStart with
    | some start =>
      let s := { s with eraseStart := none }
      if s.page.strokes.ref ≠ start.ref then commitInk A s s.page start false else (s, none)
    | none =>
      match s.draft with
      | none => (s, none)
      | some points => draw A { s with draft := none } uuid points

/-- An empty text box is saved by its first edit. Where `pruneEmpty` throws, nothing is placed. -/
def placeBox (s : Editor) (x y : ℚ) (blocks : Option (List Value)) (view : Option View) (uuid : JsString) : Editor × Option Report :=
  if !s.editable then (s, none)
  else
    let spot := fitBox A x defaultBoxWidth view
    match pruneEmpty s.page.page with
    | none => (s, none)
    | some page =>
      match addBox page uuid spot.1 y (blocks.getD emptyDocument) spot.2 with
      | none => (s, some (.failed boxesFull))
      | some page =>
        if blocks.isSome then (commit A s (s.withBoxes page.boxes) false).2 else (s.shows (s.withBoxes page.boxes), none)

def surfaceClick (s : Editor) (narrow : Bool) (x y : ℚ) (view : Option View) (uuid : JsString) : Editor × Option Report :=
  if !s.editable ∨ s.tool ≠ .type ∨ narrow then (s, none) else placeBox A s x y none view uuid

/-- The buttons that start a text box: below what there is, with the block of a format. -/
def addText (s : Editor) (block : Option (List Value)) (heights : JsString → Option ℚ) (view : Option View) (uuid : JsString) :
    Editor × Option Report :=
  let spot := freeSpot A s.page.page heights
  placeBox A s spot.1 spot.2 block view uuid

/-- An editor that may no longer edit lets go of what it was doing. -/
def setEditable (s : Editor) (editable : Bool) : Editor :=
  if editable then { s with editable }
  else { s with editable, draft := none, eraseStart := none, drag := none, activePointer := none }

def respond (s : Editor) : Event A → Editor × Option Report
  | .change id blocks => change A s id blocks.val
  | .hydrated id blocks => hydrated s id blocks.val
  | .startDrag id mode button px py => startDrag s id mode button px.val py.val
  | .dragMove px py => dragMove A s px.val py.val
  | .endDrag => endDrag A s
  | .nudge id key shift => nudge A s id key shift
  | .undo => undo A s
  | .redo => redo A s
  | .inkDown type button pointer sample => inkDown A s type button pointer sample
  | .inkMove pointer x y samples => inkMove A s pointer x.val y.val samples
  | .inkUp pointer uuid => inkUp A s pointer uuid.val
  | .surfaceClick narrow x y view uuid => surfaceClick A s narrow x.val y.val view uuid.val
  | .drop x y block view uuid => placeBox A s x.val y.val (some block.val) view uuid.val
  | .addText block heights view uuid => addText A s (block.map Subtype.val) heights view uuid.val
  | .setTool tool => ({ s with tool }, none)
  | .setColor color => ({ s with color }, none)
  | .setSize sizeIndex => ({ s with sizeIndex }, none)
  | .setEditable editable => (s.setEditable editable, none)

/-- Every event makes one page and one array of strokes at most. -/
def step (s : Editor) (e : Event A) : Editor := { (respond A s e).1 with objects := s.objects + 2 }

/-- An opened body. A legacy box that is wider than the window is narrowed for display. -/
def start (body : JsString) (view : Option View) : Editor :=
  let opened := (openPage A.toNumbers body).toCanvasPage
  let s : Editor := { page := { ref := 0, boxes := opened.boxes, strokes := { ref := 1, list := opened.strokes } } }
  match opened.boxes.find? fun entry => entry.id = legacyBox with
  | none => s
  | some box =>
    let width := (fitBox A box.x box.width view).2
    if width < box.width then { s.shows (s.updated legacyBox { width := some (.finite width) }) with objects := 4 } else s

end Editor

/-! ## What an editor shows may be saved -/

section Written

variable {N : Numbers}

theorem CanvasBox.value_wf_iff {b : CanvasBox} :
    b.value.WF N ↔ N.IsNumber b.x ∧ N.IsNumber b.y ∧ N.IsNumber b.width ∧ ValuesWF N b.blocks := by
  constructor
  · intro h
    have hx : prop "x" b.value = some (.num (.finite b.x)) := by simp [CanvasBox.value, prop_object, List.lookup_cons]
    have hy : prop "y" b.value = some (.num (.finite b.y)) := by simp [CanvasBox.value, prop_object, List.lookup_cons]
    have hwidth : prop "width" b.value = some (.num (.finite b.width)) := by
      simp [CanvasBox.value, prop_object, List.lookup_cons]
    have hblocks : prop "blocks" b.value = some (.arr b.blocks) := by simp [CanvasBox.value, prop_object, List.lookup_cons]
    exact ⟨prop_wf h "x" _ hx, prop_wf h "y" _ hy, prop_wf h "width" _ hwidth, prop_wf h "blocks" _ hblocks⟩
  · rintro ⟨hx, hy, hwidth, hblocks⟩
    refine object_wf ["id", "x", "y", "width", "blocks"] rfl (by decide) ?_
    simp only [List.forall_mem_cons]
    exact ⟨trivial, hx, hy, hwidth, hblocks, List.forall_mem_nil _⟩

theorem CanvasStroke.value_wf_iff {s : CanvasStroke} : s.value.WF N ↔ N.IsNumber s.size ∧ ∀ q ∈ s.points, N.IsNumber q := by
  have hnumbers : (numbers s.points).WF N ↔ ∀ q ∈ s.points, N.IsNumber q := by
    rw [numbers, Value.WF, valuesWF_iff, List.forall_mem_map]
    rfl
  constructor
  · intro h
    have hsize : prop "size" s.value = some (.num (.finite s.size)) := by
      simp [CanvasStroke.value, prop_object, List.lookup_cons]
    have hpoints : prop "points" s.value = some (numbers s.points) := by
      simp [CanvasStroke.value, prop_object, List.lookup_cons]
    exact ⟨prop_wf h "size" _ hsize, hnumbers.mp (prop_wf h "points" _ hpoints)⟩
  · rintro ⟨hsize, hpoints⟩
    refine object_wf ["id", "tool", "color", "size", "points"] rfl (by decide) ?_
    simp only [List.forall_mem_cons]
    exact ⟨trivial, trivial, trivial, hsize, hnumbers.mpr hpoints, List.forall_mem_nil _⟩

theorem CanvasPage.value_wf_iff {p : CanvasPage} :
    p.value.WF N ↔ (∀ b ∈ p.boxes, b.value.WF N) ∧ ∀ s ∈ p.strokes, s.value.WF N := by
  have hboxes : Value.WF N (.arr (p.boxes.map CanvasBox.value)) ↔ ∀ b ∈ p.boxes, b.value.WF N := by
    rw [Value.WF, valuesWF_iff, List.forall_mem_map]
  have hstrokes : Value.WF N (.arr (p.strokes.map CanvasStroke.value)) ↔ ∀ s ∈ p.strokes, s.value.WF N := by
    rw [Value.WF, valuesWF_iff, List.forall_mem_map]
  constructor
  · intro h
    have hprop : prop "boxes" p.value = some (.arr (p.boxes.map CanvasBox.value)) := by
      simp [CanvasPage.value, prop_object, List.lookup_cons]
    have hprop' : prop "strokes" p.value = some (.arr (p.strokes.map CanvasStroke.value)) := by
      simp [CanvasPage.value, prop_object, List.lookup_cons]
    exact ⟨hboxes.mp (prop_wf h "boxes" _ hprop), hstrokes.mp (prop_wf h "strokes" _ hprop')⟩
  · rintro ⟨hb, hs⟩
    refine object_wf ["format", "boxes", "strokes"] rfl (by decide) ?_
    simp only [List.forall_mem_cons]
    exact ⟨trivial, hboxes.mpr hb, hstrokes.mpr hs, List.forall_mem_nil _⟩

end Written

/-- Boxes that may be saved. -/
structure BoxesOk (A : Arithmetic) (boxes : List CanvasBox) : Prop where
  length_le : boxes.length ≤ maxBoxes
  nodup : (boxes.map CanvasBox.id).Nodup
  sound : ∀ b ∈ boxes, b.Sound
  wf : ∀ b ∈ boxes, b.value.WF A.toNumbers

/-- Strokes that may be saved. -/
structure StrokesOk (A : Arithmetic) (strokes : List CanvasStroke) : Prop where
  length_le : strokes.length ≤ maxStrokes
  nodup : (strokes.map CanvasStroke.id).Nodup
  drawn : ∀ s ∈ strokes, s.Drawn
  wf : ∀ s ∈ strokes, s.value.WF A.toNumbers

/-- The points of a stroke that is being drawn. -/
structure DraftOk (A : Arithmetic) (points : List ℚ) : Prop where
  triples : points.length % 3 = 0
  nonempty : points ≠ []
  length_le : points.length ≤ maxStrokePoints * 3
  numbers : ∀ q ∈ points, A.IsNumber q

structure Editor.Valid (A : Arithmetic) (s : Editor) : Prop where
  boxes : BoxesOk A s.page.boxes
  strokes : StrokesOk A s.page.strokes.list
  history : ∀ strokes ∈ s.history.states, StrokesOk A strokes.list
  eraseStart : ∀ strokes, s.eraseStart = some strokes → StrokesOk A strokes.list
  draft : ∀ points, s.draft = some points → DraftOk A points

/-- What a handler leaves is valid, and what it saves is the page it shows. -/
def Keeps (A : Arithmetic) (r : Editor × Option Report) : Prop :=
  r.1.Valid A ∧ ∀ body, r.2 = some (.changed body) → body = stringifyCanvasPage A.toNumbers r.1.page.page

section Invariant

variable {A : Arithmetic} {s : Editor}

theorem keeps_none (h : s.Valid A) : Keeps A (s, none) := ⟨h, fun _ hb => by cases hb⟩

theorem keeps_failed (h : s.Valid A) (message : String) : Keeps A (s, some (.failed message)) := ⟨h, fun _ hb => by cases hb⟩

theorem Editor.Valid.shows (h : s.Valid A) (next : Shown) (hb : BoxesOk A next.boxes) (hs : StrokesOk A next.strokes.list) :
    (s.shows next).Valid A := ⟨hb, hs, h.history, h.eraseStart, h.draft⟩

theorem Editor.Valid.withHistory (h : s.Valid A) {history : History Strokes}
    (hh : ∀ strokes ∈ history.states, StrokesOk A strokes.list) : Editor.Valid A { s with history } :=
  ⟨h.boxes, h.strokes, hh, h.eraseStart, h.draft⟩

theorem keeps_commit (h : s.Valid A) (next : Shown) (hb : BoxesOk A next.boxes) (hs : StrokesOk A next.strokes.list)
    (guard : Bool) : Keeps A (Editor.commit A s next guard).2 := by
  unfold Editor.commit
  split
  · exact keeps_none h
  · dsimp only
    split
    · exact keeps_failed h _
    · exact ⟨h.shows next hb hs, fun body hbody => (Report.changed.inj (Option.some.inj hbody)).symm⟩

/-! ### Boxes -/

theorem coord_bounds (value : ℚ) : (0 ≤ coord value ∧ coord value ≤ maxCoord) ∧ ∃ n : ℕ, n ≤ 2 ^ 53 ∧ (n : ℚ) = coord value := by
  have hcoord : (0 : ℚ) ≤ maxCoord := by decide +kernel
  refine ⟨⟨le_min hcoord (le_max_left _ _), min_le_left _ _⟩, (min 100000 (max 0 ⌊value + 1 / 2⌋)).toNat, ?_, ?_⟩
  · omega
  · have hcast : (((min 100000 (max 0 ⌊value + 1 / 2⌋)).toNat : ℤ) : ℚ) = ((min 100000 (max 0 ⌊value + 1 / 2⌋) : ℤ) : ℚ) := by
      congr 1
      omega
    rw [← Int.cast_natCast, hcast, coord, round, Int.cast_min, Int.cast_max, maxCoord]
    norm_num

theorem change_width_bounds (value : ℚ) : (boxMinWidth ≤ min boxMaxWidth (max boxMinWidth (round value)) ∧
    min boxMaxWidth (max boxMinWidth (round value)) ≤ boxMaxWidth) ∧
      ∃ n : ℕ, n ≤ 2 ^ 53 ∧ (n : ℚ) = min boxMaxWidth (max boxMinWidth (round value)) := by
  have hle : boxMinWidth ≤ boxMaxWidth := by decide +kernel
  refine ⟨⟨le_min hle (le_max_left _ _), min_le_left _ _⟩, (min 2000 (max 160 ⌊value + 1 / 2⌋)).toNat, ?_, ?_⟩
  · omega
  · have hcast : (((min 2000 (max 160 ⌊value + 1 / 2⌋)).toNat : ℤ) : ℚ) = ((min 2000 (max 160 ⌊value + 1 / 2⌋) : ℤ) : ℚ) := by
      congr 1
      omega
    rw [← Int.cast_natCast, hcast, round, Int.cast_min, Int.cast_max, boxMaxWidth, boxMinWidth]
    norm_num

theorem BoxesOk.update {boxes : List CanvasBox} (h : BoxesOk A boxes) (id : JsString) {change : BoxChange}
    (hchange : ∀ blocks, change.blocks = some blocks → ValuesWF A.toNumbers blocks) :
    BoxesOk A (boxes.map fun box => if box.id = id then box.change change else box) := by
  have hid : ∀ box : CanvasBox, (if box.id = id then box.change change else box).id = box.id := by
    intro box
    split <;> rfl
  refine ⟨by rw [List.length_map]; exact h.length_le, ?_, List.forall_mem_map.mpr fun b hb => ?_,
    List.forall_mem_map.mpr fun b hb => ?_⟩
  · rw [List.map_map]
    exact (List.map_congr_left fun b _ => hid b) ▸ h.nodup
  · split
    · exact ⟨(h.sound b hb).id, (coord_bounds _).1, (coord_bounds _).1, (change_width_bounds _).1⟩
    · exact h.sound b hb
  · split
    · obtain ⟨-, nx, hnx, hx⟩ := coord_bounds (keep change.x b.x)
      obtain ⟨-, ny, hny, hy⟩ := coord_bounds (keep change.y b.y)
      obtain ⟨-, nw, hnw, hw⟩ := change_width_bounds (keep change.width b.width)
      refine CanvasBox.value_wf_iff.mpr ⟨isNumber_of_nat nx hnx hx, isNumber_of_nat ny hny hy, isNumber_of_nat nw hnw hw, ?_⟩
      cases hblocks : change.blocks with
      | none =>
        rw [CanvasBox.change, hblocks]
        exact (CanvasBox.value_wf_iff.mp (h.wf b hb)).2.2.2
      | some blocks =>
        rw [CanvasBox.change, hblocks]
        exact hchange blocks hblocks
    · exact h.wf b hb

theorem Editor.Valid.updated (h : s.Valid A) (id : JsString) {change : BoxChange}
    (hchange : ∀ blocks, change.blocks = some blocks → ValuesWF A.toNumbers blocks) : BoxesOk A (s.updated id change).boxes :=
  h.boxes.update id hchange

theorem BoxesOk.sublist {boxes boxes' : List CanvasBox} (h : BoxesOk A boxes) (hsub : List.Sublist boxes' boxes) :
    BoxesOk A boxes' :=
  ⟨hsub.length_le.trans h.length_le, (hsub.map _).nodup h.nodup, fun b hb => h.sound b (hsub.subset hb),
    fun b hb => h.wf b (hsub.subset hb)⟩

theorem nonEmptyBoxes_sublist : ∀ {boxes r : List CanvasBox}, nonEmptyBoxes boxes = some r → List.Sublist r boxes
  | [], r, h => by
    cases h
    exact List.Sublist.refl _
  | box :: boxes, r, h => by
    obtain ⟨empty, -, h⟩ := Option.bind_eq_some_iff.mp h
    obtain ⟨rest, hrest, h⟩ := Option.bind_eq_some_iff.mp h
    have hsub := nonEmptyBoxes_sublist hrest
    cases h
    cases empty with
    | true => exact hsub.cons box
    | false => exact hsub.cons_cons box

theorem pruneEmpty_spec {page pruned : CanvasPage} (h : pruneEmpty page = some pruned) :
    List.Sublist pruned.boxes page.boxes ∧ pruned.strokes = page.strokes := by
  obtain ⟨boxes, hboxes, hpage⟩ := Option.bind_eq_some_iff.mp h
  cases hpage
  exact ⟨nonEmptyBoxes_sublist hboxes, rfl⟩

theorem fitBox_width (x : ℚ) (view : Option View) :
    (boxMinWidth ≤ (fitBox A x defaultBoxWidth view).2 ∧ (fitBox A x defaultBoxWidth view).2 ≤ boxMaxWidth) ∧
      A.IsNumber (fitBox A x defaultBoxWidth view).2 := by
  have hdefault : (boxMinWidth ≤ defaultBoxWidth ∧ defaultBoxWidth ≤ boxMaxWidth) ∧ A.IsNumber defaultBoxWidth :=
    ⟨by decide +kernel, isNumber_of_nat 640 (by decide) rfl⟩
  have hmin : A.IsNumber boxMinWidth := isNumber_of_nat 160 (by decide) rfl
  unfold fitBox
  split
  · exact hdefault
  · split
    · exact hdefault
    · dsimp only
      have hfit : ∀ w, A.IsNumber w → (boxMinWidth ≤ max boxMinWidth (min defaultBoxWidth w) ∧
          max boxMinWidth (min defaultBoxWidth w) ≤ boxMaxWidth) ∧ A.IsNumber (max boxMinWidth (min defaultBoxWidth w)) := by
        intro w hw
        refine ⟨⟨le_max_left _ _, max_le (by decide +kernel) ((min_le_left _ _).trans hdefault.1.2)⟩, ?_⟩
        rcases max_choice boxMinWidth (min defaultBoxWidth w) with hmax | hmax <;> rw [hmax]
        · exact hmin
        · rcases min_choice defaultBoxWidth w with hmin | hmin <;> rw [hmin]
          · exact hdefault.2
          · exact hw
      exact hfit _ (A.isNumber_nearest _)

theorem BoxesOk.add {page page' : CanvasPage} (h : BoxesOk A page.boxes) {uuid : JsString} {x y width : ℚ} {blocks : List Value}
    (hadd : addBox page uuid x y blocks width = some page') (huuid : isItemId uuid = true)
    (hfresh : uuid ∉ page.boxes.map CanvasBox.id) (hwidth : boxMinWidth ≤ width ∧ width ≤ boxMaxWidth)
    (hnumber : A.IsNumber width) (hblocks : ValuesWF A.toNumbers blocks) : BoxesOk A page'.boxes := by
  unfold addBox at hadd
  split at hadd
  · cases hadd
  · next hlength =>
    cases hadd
    obtain ⟨hx, nx, hnx, hxn⟩ := coord_bounds x
    obtain ⟨hy, ny, hny, hyn⟩ := coord_bounds y
    refine ⟨?_, ?_, List.forall_mem_append.mpr ⟨h.sound, List.forall_mem_singleton.mpr ⟨huuid, hx, hy, hwidth⟩⟩,
      List.forall_mem_append.mpr ⟨h.wf, List.forall_mem_singleton.mpr (CanvasBox.value_wf_iff.mpr
        ⟨isNumber_of_nat nx hnx hxn, isNumber_of_nat ny hny hyn, hnumber, hblocks⟩)⟩⟩
    · rw [List.length_append, List.length_singleton]
      omega
    · rw [List.map_append, List.map_singleton, ← List.concat_eq_append]
      exact h.nodup.concat hfresh

/-- An ID that is not taken is not by the boxes that are left. -/
theorem keeps_placeBox (h : s.Valid A) {x y : ℚ} {blocks : Option (List Value)} {view : Option View} {uuid : JsString}
    (huuid : isItemId uuid = true) (hfresh : uuid ∉ s.page.boxes.map CanvasBox.id)
    (hblocks : ∀ vs, blocks = some vs → ValuesWF A.toNumbers vs) : Keeps A (Editor.placeBox A s x y blocks view uuid) := by
  unfold Editor.placeBox
  split
  · exact keeps_none h
  · dsimp only
    split
    · exact keeps_none h
    · next pruned hprune =>
      obtain ⟨hsub, -⟩ := pruneEmpty_spec hprune
      split
      · exact keeps_failed h _
      · next page hadd =>
        have hwf : ValuesWF A.toNumbers (blocks.getD emptyDocument) := by
          cases blocks with
          | none => exact valuesWF_iff.mpr emptyDocument_blocks.2.1
          | some vs => exact hblocks vs rfl
        obtain ⟨hwidth, hnumber⟩ := fitBox_width (A := A) x view
        have hboxes : BoxesOk A page.boxes := (h.boxes.sublist hsub).add hadd huuid
          (fun hmem => hfresh ((hsub.map CanvasBox.id).subset hmem)) hwidth hnumber hwf
        split
        · exact keeps_commit h (s.withBoxes page.boxes) hboxes h.strokes _
        · exact keeps_none (h.shows (s.withBoxes page.boxes) hboxes h.strokes)

/-! ### Ink -/

theorem StrokesOk.sublist {strokes strokes' : List CanvasStroke} (h : StrokesOk A strokes)
    (hsub : List.Sublist strokes' strokes) : StrokesOk A strokes' :=
  ⟨hsub.length_le.trans h.length_le, (hsub.map _).nodup h.nodup, fun b hb => h.drawn b (hsub.subset hb),
    fun b hb => h.wf b (hsub.subset hb)⟩

theorem Editor.Valid.erase (h : s.Valid A) (x y : ℚ) : (Editor.erase A s x y).Valid A := by
  unfold Editor.erase
  dsimp only
  split
  · exact h
  · exact h.shows (s.withStrokes _) h.boxes (h.strokes.sublist List.filter_sublist)

theorem length_point (sample : Sample A) : (Editor.point sample).length = 3 := rfl

theorem point_ok (sample : Sample A) : ∀ q ∈ Editor.point sample, A.IsNumber q := by
  rw [Editor.point, List.forall_mem_cons, List.forall_mem_cons, List.forall_mem_singleton]
  exact ⟨A.isNumber_round _ sample.x.property, A.isNumber_round _ sample.y.property, sample.pressure.property⟩

theorem extend_ok (samples : List (Sample A)) : ∀ {points : List ℚ}, DraftOk A points → DraftOk A (Editor.extend A points samples) := by
  induction samples with
  | nil => exact fun h => h
  | cons sample samples ih =>
    intro points h
    rw [Editor.extend]
    split
    · exact h
    · next hlength =>
      have htriples := h.triples
      have hcap : maxStrokePoints * 3 = 30000 := rfl
      refine ih ⟨?_, List.append_ne_nil_of_left_ne_nil h.nonempty _, ?_, List.forall_mem_append.mpr ⟨h.numbers, point_ok sample⟩⟩
      · rw [List.length_append, length_point]
        omega
      · rw [List.length_append, length_point]
        omega

theorem strokeSize_nat (tool : PageTool) (sizeIndex : Fin 3) :
    ∃ n : ℕ, 1 ≤ n ∧ n ≤ 64 ∧ (n : ℚ) = strokeSize tool sizeIndex := by
  have hpen : ∃ n : ℕ, 1 ≤ n ∧ n ≤ 64 ∧ (n : ℚ) = [2, 4, 8].get sizeIndex := by
    match sizeIndex with
    | 0 => exact ⟨2, by decide, by decide, rfl⟩
    | 1 => exact ⟨4, by decide, by decide, rfl⟩
    | 2 => exact ⟨8, by decide, by decide, rfl⟩
  cases tool with
  | highlighter =>
    match sizeIndex with
    | 0 => exact ⟨12, by decide, by decide, rfl⟩
    | 1 => exact ⟨20, by decide, by decide, rfl⟩
    | 2 => exact ⟨28, by decide, by decide, rfl⟩
  | type | pen | eraser => exact hpen

theorem StrokesOk.add (h : StrokesOk A s.page.strokes.list) {uuid : JsString} {points : List ℚ} (hpoints : DraftOk A points)
    (huuid : isItemId uuid = true) (hfresh : uuid ∉ s.page.strokes.list.map CanvasStroke.id)
    (hlength : s.page.strokes.list.length < maxStrokes) :
    StrokesOk A (s.page.strokes.list ++ [s.stroke uuid points]) := by
  obtain ⟨n, hpos, hn, hsize⟩ := strokeSize_nat s.tool s.sizeIndex
  refine ⟨?_, ?_, List.forall_mem_append.mpr ⟨h.drawn, List.forall_mem_singleton.mpr ⟨huuid, ?_, hpoints.triples, hpoints.nonempty,
    hpoints.length_le⟩⟩, List.forall_mem_append.mpr ⟨h.wf, List.forall_mem_singleton.mpr (CanvasStroke.value_wf_iff.mpr
      ⟨isNumber_of_nat n (by omega) hsize, hpoints.numbers⟩)⟩⟩
  · rw [List.length_append, List.length_singleton]
    omega
  · rw [List.map_append, List.map_singleton, ← List.concat_eq_append]
    exact h.nodup.concat hfresh
  · have hbounds : (1 : ℚ) ≤ n ∧ (n : ℚ) ≤ 64 := ⟨by exact_mod_cast hpos, by exact_mod_cast hn⟩
    rw [hsize] at hbounds
    exact hbounds

theorem keeps_commitInk (h : s.Valid A) (next : Shown) {before : Strokes} (hb : BoxesOk A next.boxes)
    (hs : StrokesOk A next.strokes.list) (hbefore : StrokesOk A before.list) (guard : Bool) :
    Keeps A (Editor.commitInk A s next before guard) := by
  have hkeeps := keeps_commit h next hb hs guard
  unfold Editor.commitInk
  split
  · next s' report hcommit =>
    rw [hcommit] at hkeeps
    refine ⟨hkeeps.1.withHistory fun strokes hmem => ?_, hkeeps.2⟩
    rcases History.mem_push hmem with hmem | rfl
    · exact hkeeps.1.history strokes hmem
    · exact hbefore
  · next s' report hcommit =>
    rw [hcommit] at hkeeps
    exact hkeeps

theorem keeps_draw (h : s.Valid A) {uuid : JsString} {points : List ℚ} (hpoints : DraftOk A points) (huuid : isItemId uuid = true)
    (hfresh : uuid ∉ s.page.strokes.list.map CanvasStroke.id) : Keeps A (Editor.draw A s uuid points) := by
  unfold Editor.draw
  split
  · exact keeps_failed h _
  · next hlength =>
    have hadd := h.strokes.add hpoints huuid hfresh (Nat.lt_of_not_le hlength)
    exact keeps_commitInk h (s.withStrokes (s.newStrokes (s.page.strokes.list ++ [s.stroke uuid points]))) h.boxes hadd h.strokes _

/-- Undone or redone ink is of the timeline. -/
theorem keeps_walk (h : s.Valid A) {strokes : Strokes} {history : History Strokes}
    (hmoved : history.timeline strokes = s.history.timeline s.page.strokes) :
    Keeps A (Editor.commit A { s with history } (s.withStrokes strokes) false).2 := by
  have hall : ∀ st ∈ history.timeline strokes, StrokesOk A st.list := by
    intro st hst
    rw [hmoved] at hst
    rcases History.mem_timeline.mp hst with hst | rfl
    · exact h.history st hst
    · exact h.strokes
  have hhistory : Editor.Valid A { s with history } := h.withHistory fun st hst => hall st (History.mem_timeline.mpr (.inl hst))
  have hstrokes : StrokesOk A strokes.list := hall strokes (History.mem_timeline.mpr (.inr rfl))
  exact keeps_commit hhistory (s.withStrokes strokes) h.boxes hstrokes _

/-! ### Events -/

theorem keeps_change (h : s.Valid A) (id : JsString) {change : BoxChange}
    (hchange : ∀ blocks, change.blocks = some blocks → ValuesWF A.toNumbers blocks) :
    Keeps A (Editor.commit A s (s.updated id change) false).2 :=
  keeps_commit h (s.updated id change) (h.updated id hchange) h.strokes _

theorem blocks_wf {change : BoxChange} (blocks : Blocks A) (hchange : change.blocks = some blocks.val) :
    ∀ vs, change.blocks = some vs → ValuesWF A.toNumbers vs := by
  intro vs hvs
  rw [hchange] at hvs
  cases hvs
  exact blocks.property

theorem keeps_dragMove (h : s.Valid A) (px py : ℚ) : Keeps A (Editor.dragMove A s px py) := by
  unfold Editor.dragMove
  split
  · exact keeps_none h
  · split
    · exact keeps_none h
    · next d _ =>
      cases d.mode with
      | move | resize => exact keeps_none (h.shows (s.updated d.id _) (h.updated d.id fun _ hb => by cases hb) h.strokes)

theorem keeps_endDrag (h : s.Valid A) : Keeps A (Editor.endDrag A s) := by
  have hdrop : Editor.Valid A { s with drag := none } := ⟨h.boxes, h.strokes, h.history, h.eraseStart, h.draft⟩
  unfold Editor.endDrag
  split
  · exact keeps_none h
  · dsimp only
    split
    · exact keeps_commit hdrop s.page h.boxes h.strokes _
    · exact keeps_none hdrop

theorem keeps_nudge (h : s.Valid A) (id : JsString) (key : Key) (shift : Bool) : Keeps A (Editor.nudge A s id key shift) := by
  unfold Editor.nudge
  split
  · exact keeps_none h
  · dsimp only
    split
    · exact keeps_change h id fun _ hb => by cases hb
    · exact keeps_none h

theorem keeps_undo (h : s.Valid A) : Keeps A (Editor.undo A s) := by
  unfold Editor.undo
  split
  · exact keeps_none h
  · split
    · next previous history hundo => exact keeps_walk h (History.undo_spec hundo).1
    · exact keeps_none h

theorem keeps_redo (h : s.Valid A) : Keeps A (Editor.redo A s) := by
  unfold Editor.redo
  split
  · exact keeps_none h
  · split
    · next next history hredo => exact keeps_walk h (History.redo_spec hredo).1
    · exact keeps_none h

theorem keeps_inkDown (h : s.Valid A) (type : PointerType) (button : ℕ) (pointer : ℤ) (sample : Sample A) :
    Keeps A (Editor.inkDown A s type button pointer sample) := by
  unfold Editor.inkDown
  split
  · exact keeps_none h
  · split
    · exact keeps_none h
    · dsimp only
      split
      · exact keeps_none ⟨h.boxes, h.strokes, h.history, h.eraseStart, h.draft⟩
      · split
        · have hstart : ∀ strokes, some s.page.strokes = some strokes → StrokesOk A strokes.list :=
            fun strokes hs => Option.some.inj hs ▸ h.strokes
          refine keeps_none (Editor.Valid.erase ?_ _ _)
          exact ⟨h.boxes, h.strokes, h.history, hstart, h.draft⟩
        · refine keeps_none ⟨h.boxes, h.strokes, h.history, h.eraseStart, fun points hpoints => ?_⟩
          cases hpoints
          exact ⟨by rw [length_point], List.cons_ne_nil _ _, (by decide : 3 ≤ maxStrokePoints * 3), point_ok sample⟩

theorem keeps_inkMove (h : s.Valid A) (pointer : ℤ) (x y : ℚ) (samples : List (Sample A)) :
    Keeps A (Editor.inkMove A s pointer x y samples) := by
  unfold Editor.inkMove
  split
  · exact keeps_none h
  · split
    · exact keeps_none (h.erase x y)
    · split
      · exact keeps_none h
      · next points hdraft =>
        refine keeps_none ⟨h.boxes, h.strokes, h.history, h.eraseStart, fun points' hpoints => ?_⟩
        cases hpoints
        exact extend_ok samples (h.draft points hdraft)

theorem keeps_inkUp (h : s.Valid A) (pointer : ℤ) {uuid : JsString} (huuid : isItemId uuid = true)
    (hfresh : uuid ∉ s.page.strokes.list.map CanvasStroke.id) : Keeps A (Editor.inkUp A s pointer uuid) := by
  have hup : Editor.Valid A { s with activePointer := none } := ⟨h.boxes, h.strokes, h.history, h.eraseStart, h.draft⟩
  unfold Editor.inkUp
  split
  · exact keeps_none h
  · dsimp only
    split
    · next start hstart =>
      have hend : Editor.Valid A { s with activePointer := none, eraseStart := none } :=
        ⟨h.boxes, h.strokes, h.history, fun _ hs => (by cases hs), h.draft⟩
      split
      · exact keeps_commitInk hend s.page h.boxes h.strokes (h.eraseStart start hstart) _
      · exact keeps_none hend
    · split
      · exact keeps_none hup
      · next points hdraft =>
        have hend : Editor.Valid A { s with activePointer := none, draft := none } :=
          ⟨h.boxes, h.strokes, h.history, h.eraseStart, fun _ hp => by cases hp⟩
        exact keeps_draw hend (h.draft points hdraft) huuid hfresh

/-- What `crypto.randomUUID` gave is no ID of the page. -/
def Fresh (s : Editor) : Event A → Prop
  | .inkUp _ uuid => uuid.val ∉ s.page.strokes.list.map CanvasStroke.id
  | .surfaceClick _ _ _ _ uuid | .drop _ _ _ _ uuid | .addText _ _ _ uuid => uuid.val ∉ s.page.boxes.map CanvasBox.id
  | _ => True

theorem keeps_respond (h : s.Valid A) {e : Event A} (hfresh : Fresh s e) : Keeps A (Editor.respond A s e) := by
  cases e with
  | change id blocks => exact keeps_change h id (blocks_wf blocks rfl)
  | hydrated id blocks => exact keeps_none (h.shows (s.updated id _) (h.updated id (blocks_wf blocks rfl)) h.strokes)
  | startDrag id mode button px py =>
    rw [Editor.respond, Editor.startDrag]
    split
    · exact keeps_none h
    · split
      · exact keeps_none h
      · split
        · exact keeps_none h
        · exact keeps_none ⟨h.boxes, h.strokes, h.history, h.eraseStart, h.draft⟩
  | dragMove px py => exact keeps_dragMove h _ _
  | endDrag => exact keeps_endDrag h
  | nudge id key shift => exact keeps_nudge h id key shift
  | undo => exact keeps_undo h
  | redo => exact keeps_redo h
  | inkDown type button pointer sample => exact keeps_inkDown h type button pointer sample
  | inkMove pointer x y samples => exact keeps_inkMove h pointer _ _ samples
  | inkUp pointer uuid => exact keeps_inkUp h pointer uuid.property hfresh
  | surfaceClick narrow x y view uuid =>
    rw [Editor.respond, Editor.surfaceClick]
    split
    · exact keeps_none h
    · exact keeps_placeBox h uuid.property hfresh fun _ hvs => by cases hvs
  | drop x y block view uuid =>
    exact keeps_placeBox h uuid.property hfresh fun vs hvs => Option.some.inj hvs ▸ block.property
  | addText block heights view uuid =>
    refine keeps_placeBox h uuid.property hfresh fun vs hvs => ?_
    obtain ⟨b, -, rfl⟩ := Option.map_eq_some_iff.mp hvs
    exact b.property
  | setTool tool | setColor color | setSize index => exact keeps_none ⟨h.boxes, h.strokes, h.history, h.eraseStart, h.draft⟩
  | setEditable editable =>
    refine keeps_none ?_
    unfold Editor.setEditable
    split
    · exact ⟨h.boxes, h.strokes, h.history, h.eraseStart, h.draft⟩
    · exact ⟨h.boxes, h.strokes, h.history, fun _ hs => (by cases hs), fun _ hp => (by cases hp)⟩

theorem Editor.Valid.step (h : s.Valid A) {e : Event A} (hfresh : Fresh s e) : (Editor.step A s e).Valid A := by
  have hvalid := (keeps_respond h hfresh).1
  exact ⟨hvalid.boxes, hvalid.strokes, hvalid.history, hvalid.eraseStart, hvalid.draft⟩

variable (A) in
theorem start_valid (body : JsString) (view : Option View) : (Editor.start A body view).Valid A := by
  obtain ⟨hsound, hwf⟩ := openPage_sound A.toNumbers body
  obtain ⟨hboxesWF, hstrokesWF⟩ := CanvasPage.value_wf_iff.mp hwf
  have hboxes : BoxesOk A (openPage A.toNumbers body).boxes :=
    ⟨hsound.boxes_le, hsound.boxes_nodup, hsound.boxes, hboxesWF⟩
  have hstrokes : StrokesOk A (openPage A.toNumbers body).strokes :=
    ⟨hsound.strokes_le, hsound.strokes_nodup, fun s hs => (hsound.strokes s hs).drawn, hstrokesWF⟩
  have hvalid : ∀ boxes ref objects, BoxesOk A boxes → Editor.Valid A
      { page := { ref := ref, boxes := boxes, strokes := { ref := 1, list := (openPage A.toNumbers body).strokes } },
        objects := objects } :=
    fun _ _ _ hb => ⟨hb, hstrokes, fun _ hs => absurd hs List.not_mem_nil, fun _ hs => (by cases hs), fun _ hp => (by cases hp)⟩
  unfold Editor.start
  dsimp only
  split
  · exact hvalid _ _ _ hboxes
  · split
    · exact hvalid _ _ _ (hboxes.update legacyBox fun _ hb => by cases hb)
    · exact hvalid _ _ _ hboxes

theorem Editor.Valid.drawn (h : s.Valid A) : s.page.page.Drawn :=
  ⟨h.boxes.length_le, h.strokes.length_le, h.boxes.nodup, h.strokes.nodup, h.boxes.sound, h.strokes.drawn⟩

end Invariant

/-- Whatever happened to an editor, the page it shows is within the caps, and a body that it saves opens as the page it shows then:
with the points within their bounds, and a paragraph for no blocks. -/
theorem saved_opens_as_shown (A : Arithmetic) (body : JsString) (view : Option View) (es : List (Event A)) (e : Event A)
    (h : Along (Editor.step A) Fresh (Editor.start A body view) (es ++ [e])) :
    let s := run (Editor.step A) (Editor.start A body view) es
    let next := (Editor.respond A s e).1.page.page
    next.Drawn ∧ ∀ saved, (Editor.respond A s e).2 = some (.changed saved) →
      (openPage A.toNumbers saved).toCanvasPage = next.settled ∧ next.settled.Sound := by
  intro s next
  rw [along_append] at h
  have hs : s.Valid A := run_inv_of (fun _ _ hs hfresh => hs.step hfresh) h.1 (start_valid A body view)
  obtain ⟨hvalid, hsaved⟩ := keeps_respond hs h.2.1
  have hdrawn : next.Drawn := hvalid.drawn
  refine ⟨hdrawn, fun saved hreport => ?_⟩
  rw [hsaved saved hreport]
  exact ⟨opened_drawn hdrawn (CanvasPage.value_wf_iff.mpr ⟨hvalid.boxes.wf, hvalid.strokes.wf⟩), hdrawn.settled_sound⟩

/-- Whole numbers, of which the nearest is the one below. -/
def wholeArithmetic : Arithmetic where
  toNumbers := wholeNumbers
  nearest q := (min (2 ^ 53) ⌊q⌋.toNat : ℕ)
  isNumber_nearest q := ⟨_, min_le_left _ _, rfl⟩
  isNumber_round x h := by
    obtain ⟨n, hn, rfl⟩ := h
    have hfloor : ⌊(n : ℚ) + 1 / 2⌋ = n := by
      rw [Int.floor_eq_iff]
      constructor
      · rw [Int.cast_natCast]
        linarith
      · rw [Int.cast_natCast]
        linarith
    exact ⟨n, hn, by rw [hfloor, Int.cast_natCast]⟩

theorem wholeArithmetic_isNumber (n : ℕ) (h : n ≤ 2 ^ 53) : wholeArithmetic.IsNumber n := ⟨n, h, rfl⟩

/-- The number of an event. -/
def wholeDouble (n : ℕ) (h : n ≤ 2 ^ 53) : Double wholeArithmetic := ⟨n, wholeArithmetic_isNumber n h⟩

def penDown : Event wholeArithmetic :=
  .inkDown .pen 0 1 ⟨wholeDouble 30 (by decide), wholeDouble 40 (by decide), wholeDouble 1 (by decide)⟩

def strokeId : Uuid := ⟨Utf16.ofText "3f2a", by decide⟩

theorem strokes_of_text (N : Numbers) : (openPage N []).strokes = [] := rfl

theorem saved_opens_as_shown_pen :
    let s := run (Editor.step wholeArithmetic) (Editor.start wholeArithmetic [] none) [penDown]
    let next := (Editor.respond wholeArithmetic s (.inkUp 1 strokeId)).1.page.page
    next.Drawn ∧ ∀ saved, (Editor.respond wholeArithmetic s (.inkUp 1 strokeId)).2 = some (.changed saved) →
      (openPage wholeArithmetic.toNumbers saved).toCanvasPage = next.settled ∧ next.settled.Sound := by
  refine saved_opens_as_shown wholeArithmetic [] none [penDown] (.inkUp 1 strokeId) ⟨trivial, ?_, trivial⟩
  exact List.not_mem_nil

/-! ## Undoing -/

section Undo

variable {A : Arithmetic} {s : Editor}

/-- The place after going back, or on, in a timeline of some length. -/
def movePlace (length place : ℕ) (back : Bool) : ℕ := if back then place - 1 else if place + 1 < length then place + 1 else place

/-- Where an event moves in the timeline, if it does not change the ink. -/
def moves : Event A → Option (List Bool)
  | .undo => some [true]
  | .redo => some [false]
  | .inkDown .. | .inkMove .. | .inkUp .. | .setEditable _ => none
  | _ => some []

/-- The ink, its history and whether it may be edited are as they were. -/
def SameInk (s s' : Editor) : Prop :=
  s'.page.strokes = s.page.strokes ∧ s'.history = s.history ∧ s'.editable = s.editable

theorem SameInk.refl (s : Editor) : SameInk s s := ⟨rfl, rfl, rfl⟩

theorem sameInk_commit (boxes : List CanvasBox) (guard : Bool) : SameInk s (Editor.commit A s (s.withBoxes boxes) guard).2.1 := by
  unfold Editor.commit
  split
  · exact .refl s
  · dsimp only
    split
    · exact .refl s
    · exact .refl s

theorem sameInk_placeBox (x y : ℚ) (blocks : Option (List Value)) (view : Option View) (uuid : JsString) :
    SameInk s (Editor.placeBox A s x y blocks view uuid).1 := by
  unfold Editor.placeBox
  split
  · exact .refl s
  · dsimp only
    split
    · exact .refl s
    · split
      · exact .refl s
      · split
        · exact sameInk_commit _ _
        · exact .refl s

theorem sameInk_endDrag : SameInk s (Editor.endDrag A s).1 := by
  unfold Editor.endDrag
  split
  · exact .refl s
  · dsimp only
    split
    · unfold Editor.commit
      split
      · exact .refl s
      · exact .refl s
    · exact .refl s

/-- Edits of the text leave the ink. -/
theorem sameInk_respond {e : Event A} (he : moves e = some []) : SameInk s (Editor.respond A s e).1 := by
  cases e with
  | undo | redo | inkDown | inkMove | inkUp | setEditable => cases he
  | change id blocks => exact sameInk_commit _ _
  | hydrated id blocks => exact .refl s
  | startDrag id mode button px py =>
    rw [Editor.respond, Editor.startDrag]
    split
    · exact .refl s
    · split
      · exact .refl s
      · split
        · exact .refl s
        · exact .refl s
  | dragMove px py =>
    rw [Editor.respond, Editor.dragMove]
    split
    · exact .refl s
    · split
      · exact .refl s
      · exact .refl s
  | endDrag => exact sameInk_endDrag
  | nudge id key shift =>
    rw [Editor.respond, Editor.nudge]
    split
    · exact .refl s
    · dsimp only
      split
      · exact sameInk_commit _ _
      · exact .refl s
  | surfaceClick narrow x y view uuid =>
    rw [Editor.respond, Editor.surfaceClick]
    split
    · exact .refl s
    · exact sameInk_placeBox _ _ _ _ _
  | drop x y block view uuid => exact sameInk_placeBox _ _ _ _ _
  | addText block heights view uuid => exact sameInk_placeBox _ _ _ _ _
  | setTool tool | setColor color | setSize index => exact .refl s

/-- The ink there was and will be again. -/
def Editor.inkTimeline (s : Editor) : List Strokes := s.history.timeline s.page.strokes

def Editor.place (s : Editor) : ℕ := s.history.past.length

theorem walked_commit (hs : s.editable = true) (next : Shown) (history : History Strokes) :
    (Editor.commit A { s with history } next false).2.1 = { s with history, page := next } := by
  have hcommit : Editor.commit A { s with history } next false =
      (true, { s with history, page := next }, some (.changed (stringifyCanvasPage A.toNumbers next.page))) := by
    unfold Editor.commit
    rw [hs]
    rfl
  rw [hcommit]

/-- An event that does not change the ink moves along its timeline. -/
theorem walk_step (hs : s.editable = true) {e : Event A} {bs : List Bool} (he : moves e = some bs) :
    (Editor.step A s e).inkTimeline = s.inkTimeline ∧
      (Editor.step A s e).place = bs.foldl (movePlace s.inkTimeline.length) s.place ∧ (Editor.step A s e).editable = true := by
  have hstill : ∀ {s' : Editor}, SameInk s s' → s'.inkTimeline = s.inkTimeline ∧ s'.place = s.place ∧ s'.editable = true := by
    rintro s' ⟨hstrokes, hhistory, heditable⟩
    rw [Editor.inkTimeline, Editor.place, hstrokes, hhistory, heditable]
    exact ⟨rfl, rfl, hs⟩
  have hnot : (!s.editable) = false := by rw [hs]; rfl
  cases e with
  | inkDown | inkMove | inkUp | setEditable => cases he
  | undo =>
    cases he
    rw [Editor.step, Editor.respond, Editor.undo, if_neg (by rw [hnot]; exact Bool.false_ne_true)]
    cases hu : s.history.undo s.page.strokes with
    | none =>
      have hplace : s.place = 0 := History.undo_none hu
      refine ⟨rfl, ?_, hs⟩
      rw [List.foldl_cons, List.foldl_nil, movePlace, if_pos rfl, hplace]
      exact hplace
    | some r =>
      obtain ⟨previous, history⟩ := r
      obtain ⟨htimeline, hlength⟩ := History.undo_spec hu
      have hplace : s.place = history.past.length + 1 := hlength.symm
      dsimp only
      rw [walked_commit hs]
      refine ⟨htimeline, ?_, hs⟩
      rw [List.foldl_cons, List.foldl_nil, movePlace, if_pos rfl, hplace, Nat.add_sub_cancel]
      rfl
  | redo =>
    cases he
    rw [Editor.step, Editor.respond, Editor.redo, if_neg (by rw [hnot]; exact Bool.false_ne_true)]
    cases hr : s.history.redo s.page.strokes with
    | none =>
      have hend : s.inkTimeline.length = s.place + 1 := History.redo_none hr
      refine ⟨rfl, ?_, hs⟩
      rw [List.foldl_cons, List.foldl_nil, movePlace, if_neg Bool.false_ne_true, hend, if_neg (lt_irrefl _)]
      rfl
    | some r =>
      obtain ⟨next, history⟩ := r
      obtain ⟨htimeline, hlength⟩ := History.redo_spec hr
      have hlt : s.place + 1 < s.inkTimeline.length := by
        rw [Editor.inkTimeline, ← htimeline, Editor.place, ← hlength]
        simp [History.timeline]
      dsimp only
      rw [walked_commit hs]
      refine ⟨htimeline, ?_, hs⟩
      rw [List.foldl_cons, List.foldl_nil, movePlace, if_neg Bool.false_ne_true, if_pos hlt]
      exact hlength
  | change | hydrated | startDrag | dragMove | endDrag | nudge | surfaceClick | drop | addText | setTool | setColor | setSize =>
    have hbs : bs = [] := (Option.some.inj he).symm
    rw [hbs] at he ⊢
    exact hstill (sameInk_respond he)

theorem walk_ink (s : Editor) (hs : s.editable = true) (es : List (Event A)) (bss : List (List Bool))
    (hes : es.map moves = bss.map some) :
    let s' := run (Editor.step A) s es
    s'.inkTimeline = s.inkTimeline ∧
      s.inkTimeline[bss.flatten.foldl (movePlace s.inkTimeline.length) s.place]? = some s'.page.strokes := by
  have hwalk : ∀ (es : List (Event A)) (bss : List (List Bool)) (s : Editor), s.editable = true → es.map moves = bss.map some →
      (run (Editor.step A) s es).inkTimeline = s.inkTimeline ∧
        (run (Editor.step A) s es).place = bss.flatten.foldl (movePlace s.inkTimeline.length) s.place := by
    intro es
    induction es with
    | nil =>
      intro bss s hs hes
      cases bss with
      | nil => exact ⟨rfl, rfl⟩
      | cons bs bss => cases hes
    | cons e es ih =>
      intro bss s hs hes
      cases bss with
      | nil => cases hes
      | cons bs bss =>
        obtain ⟨he, hes⟩ := List.cons.inj hes
        obtain ⟨htimeline, hplace, heditable⟩ := walk_step hs he
        obtain ⟨htimeline', hplace'⟩ := ih bss (Editor.step A s e) heditable hes
        rw [run_cons, List.flatten_cons, List.foldl_append, ← hplace, ← htimeline]
        exact ⟨htimeline', hplace'⟩
  intro s'
  obtain ⟨htimeline, hplace⟩ := hwalk es bss s hs hes
  refine ⟨htimeline, ?_⟩
  rw [← hplace, ← htimeline]
  exact History.timeline_place _ _

theorem commit_cases {next : Shown} {guard : Bool} :
    s.editable = true ∧ Editor.commit A s next guard =
        (true, s.shows next, some (.changed (stringifyCanvasPage A.toNumbers next.page))) ∨
      ∃ report, (∀ body, report ≠ some (.changed body)) ∧ Editor.commit A s next guard = (false, s, report) := by
  unfold Editor.commit
  split
  · exact .inr ⟨none, fun _ h => (by cases h), rfl⟩
  · next hedit =>
    dsimp only
    split
    · exact .inr ⟨some (.failed pageFull), fun _ h => (by cases h), rfl⟩
    · exact .inl ⟨by simpa using hedit, rfl⟩

/-- A gesture that is saved is kept: what the ink was is one place back. -/
theorem gesture_spec {pointer : ℤ} {uuid : Uuid} {body : JsString}
    (hsaved : (Editor.respond A s (.inkUp pointer uuid)).2 = some (.changed body)) :
    let s' := Editor.step A s (.inkUp pointer uuid)
    s'.editable = true ∧ s'.history.past.getLast? = some (s.eraseStart.getD s.page.strokes) := by
  have hcommit : ∀ {t : Editor} {next : Shown} {before : Strokes} {guard : Bool},
      (Editor.commitInk A t next before guard).2 = some (.changed body) →
        (Editor.commitInk A t next before guard).1.editable = true ∧
          (Editor.commitInk A t next before guard).1.history.past.getLast? = some before := by
    intro t next before guard hreport
    unfold Editor.commitInk at hreport ⊢
    rcases @commit_cases A t next guard with ⟨hedit, hcommit⟩ | ⟨report, hnot, hcommit⟩
    · rw [hcommit]
      exact ⟨hedit, History.getLast_push _ _⟩
    · rw [hcommit] at hreport
      exact absurd hreport (hnot body)
  rw [Editor.respond] at hsaved
  intro s'
  have hs' : s' = { (Editor.inkUp A s pointer uuid.val).1 with objects := s.objects + 2 } := rfl
  rw [hs']
  unfold Editor.inkUp at hsaved ⊢
  split at hsaved
  · cases hsaved
  · next hpointer =>
    rw [if_neg hpointer]
    dsimp only at hsaved ⊢
    cases herase : s.eraseStart with
    | some start =>
      rw [herase] at hsaved
      dsimp only at hsaved ⊢
      split at hsaved
      · next hchanged =>
        rw [if_pos hchanged]
        exact hcommit hsaved
      · cases hsaved
    | none =>
      rw [herase] at hsaved
      dsimp only at hsaved ⊢
      cases hdraft : s.draft with
      | none =>
        rw [hdraft] at hsaved
        cases hsaved
      | some points =>
        rw [hdraft] at hsaved
        dsimp only at hsaved ⊢
        unfold Editor.draw at hsaved ⊢
        split at hsaved
        · cases hsaved
        · next hlength =>
          rw [if_neg hlength]
          exact hcommit hsaved

/-- Once ink was drawn or erased and saved, however undone and redone, with any edits of the text in between, the ink is that of
the timeline at the place moved to. One place back it is what it was before. -/
theorem gesture_undone (A : Arithmetic) (s : Editor) (pointer : ℤ) (uuid : Uuid) (body : JsString)
    (hsaved : (Editor.respond A s (.inkUp pointer uuid)).2 = some (.changed body)) (es : List (Event A)) (bss : List (List Bool))
    (hes : es.map moves = bss.map some) :
    let s' := Editor.step A s (.inkUp pointer uuid)
    let ink := (run (Editor.step A) s' es).page.strokes
    let place := bss.flatten.foldl (movePlace s'.inkTimeline.length) s'.place
    s'.inkTimeline[place]? = some ink ∧ (place = s'.place → ink = s'.page.strokes) ∧
      (place + 1 = s'.place → ink = s.eraseStart.getD s.page.strokes) := by
  intro s' ink place
  obtain ⟨heditable, hlast⟩ : s'.editable = true ∧ s'.history.past.getLast? = some (s.eraseStart.getD s.page.strokes) :=
    gesture_spec hsaved
  have hink : s'.inkTimeline[place]? = some ink := (walk_ink s' heditable es bss hes).2
  refine ⟨hink, fun hplace => ?_, fun hplace => ?_⟩
  · rw [hplace] at hink
    exact Option.some.inj (hink.symm.trans (History.timeline_place _ _))
  · have hback : s'.inkTimeline[place]? = s'.history.past.getLast? := by
      have hlength : place + 1 = s'.history.past.length := hplace
      have hlt : place < s'.history.past.length := hlength ▸ Nat.lt_succ_self place
      have hindex : place = s'.history.past.length - 1 := Nat.eq_sub_of_add_eq hlength
      rw [Editor.inkTimeline, History.timeline, List.getElem?_append_left hlt, List.getLast?_eq_getElem?, ← hindex]
    exact Option.some.inj (hink.symm.trans (hback.trans hlast))

/-- An editor in which something was erased. -/
def erasing (stroke : CanvasStroke) : Editor where
  page := { ref := 2, boxes := [], strokes := { ref := 3, list := [] } }
  objects := 4
  activePointer := some 1
  eraseStart := some { ref := 1, list := [stroke] }

theorem gesture_undone_erased :
    let stroke : CanvasStroke := { id := strokeId.val, tool := .pen, color := .ink, size := 4, points := [30, 40, 1] }
    let s' := Editor.step wholeArithmetic (erasing stroke) (.inkUp 1 strokeId)
    let ink := (run (Editor.step wholeArithmetic) s' [.undo]).page.strokes
    let place := [[true]].flatten.foldl (movePlace s'.inkTimeline.length) s'.place
    s'.inkTimeline[place]? = some ink ∧ (place = s'.place → ink = s'.page.strokes) ∧
      (place + 1 = s'.place → ink = { ref := 1, list := [stroke] }) :=
  gesture_undone wholeArithmetic (erasing _) 1 strokeId _ rfl [.undo] [[true]] rfl

end Undo

end KyNotes.Document
