import KyNotes.Export.Names
import KyNotes.Outline.Groups
import Mathlib.Data.List.Sort

/-!
# The export of a notebook

`buildNotebookExport` of `web/src/exportNotebook.ts`. A group's directory is in its parent's, a section's in its group's, a
page's files are in its section's; an attachment has a directory of its own. The Markdown of the blocks is a parameter,
and so is the JSON of the manifest. The export throws where a link is made to a name with half a surrogate pair.
-/

namespace KyNotes.Export

open Casing (Tables)
open Web (text isSpace decimal padStart)

/-! ## Links -/

/-- What `encodeURIComponent` leaves as it is. -/
def isUnreserved (c : Char) : Bool := c.isAlphanum || ['-', '_', '.', '!', '~', '*', '\'', '(', ')'].contains c

def hexDigit (n : ℕ) : UInt16 := UInt16.ofNat (if n < 10 then 48 + n else 55 + n)

/-- Nothing where it throws. -/
def encodeURIComponent (s : Text) : Option Text :=
  if (Casing.points s).any (fun p => 0xd800 ≤ p && p < 0xe000) then none
  else some ((Utf16.scalars s).flatMap fun c =>
    if isUnreserved c then Utf16.units c
    else (Utf16.utf8 (String.singleton c)).flatMap fun b => [37, hexDigit (b.toNat / 16), hexDigit (b.toNat % 16)])

def sharedLength : List Text → List Text → ℕ
  | d :: dir, t :: target => if d = t then sharedLength dir target + 1 else 0
  | _, _ => 0

def linkTo (source target : Text) : Option Text := do
  let dir := (source.splitOn 47).dropLast
  let target := target.splitOn 47
  let shared := sharedLength dir target.dropLast
  let encoded ← (target.drop shared).mapM encodeURIComponent
  pure ((List.replicate (dir.length - shared) (text "../")).flatten ++ [47].intercalate encoded)

/-! ## A notebook -/

structure Group where
  id : Text
  title : Text
  order : Option Text
  group : Option Text

structure Section where
  id : Text
  title : Text
  order : Option Text
  group : Option Text

structure Note where
  id : Text
  title : Text
  body : Text
  sectionId : Option Text
  order : Option Text

/-- What `compareOrdered` reads of an item. -/
structure Ordered where
  id : Text
  order : Option Text

/-- `order` where it is truthy. -/
def Ordered.key (a : Ordered) : Option Text := a.order.filter (· ≠ [])

def compareIds (a b : Text) : Int := if a < b then -1 else if b < a then 1 else 0

def compareOrdered (a b : Ordered) : Int :=
  match a.key, b.key with
  | some x, some y => if x ≠ y then if x < y then -1 else 1 else compareIds a.id b.id
  | some _, none => -1
  | none, some _ => 1
  | none, none => compareIds a.id b.id

/-- `sort(compareOrdered)`; what is equal stays in order. -/
def sortOrdered {α : Type} (place : α → Ordered) (l : List α) : List α :=
  l.insertionSort fun a b => compareOrdered (place a) (place b) ≤ 0

def sortedSections (sections : List Section) : List Section := sortOrdered (fun s => ⟨s.id, s.order⟩) sections

def QUICK_NOTES : Text := text "quick"

def pagesInSection (notes : List Note) (sections : List Section) (sectionID : Text) : List Note :=
  let known := sections.map Section.id
  sortOrdered (fun p => ⟨p.id, p.order⟩) (notes.filter fun page =>
    if sectionID = QUICK_NOTES then (page.sectionId.filter (· ≠ [])).all fun s => !known.contains s
    else page.sectionId == some sectionID)

/-- `sectionGroup`. -/
def sectionGroup (s : Section) (parents : Outline.Parents Text) : Option Text :=
  s.group.filter fun g => (parents.lookup g).isSome

structure ExportedAttachment where
  name : Text
  type : Text
  bytes : Binary.Bytes

/-- `AttachmentSource`; nothing where it throws. -/
structure AttachmentSource (ρ : Type) where
  id : ρ → Text
  list : Text → Option (List ρ)
  /-- `open`. -/
  read : ρ → Option ExportedAttachment

structure Attachment where
  id : Text
  name : Text
  type : Text
  path : Text

/-- An entry of `manifestPages`, with full paths. -/
structure ManifestPage where
  id : Text
  title : Text
  sectionId : Option Text
  path : Text
  canvas : Option Text
  attachments : List Attachment

structure NotebookInput (ρ : Type) where
  name : Text
  notes : List Note
  sections : List Section
  groups : List Group
  unreadable : ℕ
  attachments : AttachmentSource ρ
  /-- `isCanvas`. -/
  isCanvas : Text → Bool
  /-- The trimmed `pageMarkdown` of a body, with the attachments' paths, for a path; nothing where it throws. -/
  markdown : Text → List Attachment → Text → Option Text
  /-- The JSON of the manifest. -/
  manifest : List ManifestPage → ℕ → Binary.Bytes

/-- What Unicode has to say. -/
structure Unicode where
  tables : Tables
  /-- `normalize("NFC")`. -/
  normalize : Text → Text
  normalize_ascii : Web.AsciiFixed normalize

def ATTACHMENTS : Text := text "attachments"

section Build

variable {ρ : Type} (U : Unicode) (input : NotebookInput ρ)

def root : Text := safeName U.normalize input.name (text "Notebook")

def parents : Outline.Parents Text := Outline.groupParents (input.groups.map fun g => ⟨g.id, g.group⟩)

/-! ## Directories -/

structure Dirs where
  used : Used
  groupDirs : List (Text × Text)

/-- A directory inside of another. -/
def makeDir (used : Used) (parentDir title fallback : Text) : Used × Text :=
  let (used, name) := name U.tables used parentDir (safeName U.normalize title fallback) []
  (used, join [parentDir, name])

/-- `groupDir`, for a number of nested calls. -/
def groupDirUpTo : ℕ → Dirs → Option Text → Dirs × Text
  | 0, s, _ => (s, root U input)
  | _ + 1, s, none => (s, root U input)
  | n + 1, s, some id =>
    match s.groupDirs.find? (·.1 == id) with
    | some known => (s, known.2)
    | none =>
      let (s, parentDir) := groupDirUpTo n s (Outline.parentIn (parents input) id)
      match input.groups.find? (·.id == id) with
      | none => (s, parentDir) -- an ID is always one of a group
      | some group =>
        let (used, dir) := makeDir U s.used parentDir group.title (text "Untitled group")
        (⟨used, (id, dir) :: s.groupDirs⟩, dir)

def groupDir (s : Dirs) (id : Option Text) : Dirs × Text := groupDirUpTo U input (Outline.maxGroupDepth + 1) s id

/-- The groups in the order in which they are named. -/
def namedGroups : List Group :=
  (sortOrdered (fun g => ⟨g.id, g.order⟩) input.groups).insertionSort fun a b =>
    (Outline.groupPath (some a.id) (parents input)).length ≤ (Outline.groupPath (some b.id) (parents input)).length

/-- The directory of a section. -/
def sectionDir (s : Dirs) (item : Section) : Dirs × Text :=
  let (s, parentDir) := groupDir U input s (sectionGroup item (parents input))
  let (used, dir) := makeDir U s.used parentDir item.title (text "Untitled section")
  ({ s with used }, dir)

/-- The directories of the sections, in their order. -/
def sectionDirs : Dirs → List Section → Dirs × List (Text × Text)
  | s, [] => (s, [])
  | s, item :: items =>
    let (s, dir) := sectionDir U input s item
    let (s, dirs) := sectionDirs s items
    (s, (item.id, dir) :: dirs)

/-- `lists`: a section of an ID that comes twice has the last directory of it. -/
def lists (dirs : List (Text × Text)) (quickNotes : Text) : List (Option Text × Text) :=
  dirs.map (fun d => (some d.1, ((dirs.reverse.find? (·.1 == d.1)).map Prod.snd).getD d.2)) ++ [(none, quickNotes)]

/-! ## Pages -/

/-- What the loop over the pages keeps. -/
structure Progress where
  used : Used
  metas : List Attachment := []
  failed : List Text := []
  unreadable : ℕ
  entries : List ZipEntry := []
  manifestPages : List ManifestPage := []

/-- One reference of `pageAttachments`. -/
def attach (s : Progress × List Attachment) (ref : ρ) : Progress × List Attachment :=
  let (s, found) := s
  let id := input.attachments.id ref
  if s.failed.contains id || found.any (·.id == id) then (s, found)
  else
    match s.metas.find? (·.id == id) with
    | some m => (s, found ++ [m])
    | none =>
      match input.attachments.read ref with
      | none => ({ s with failed := id :: s.failed, unreadable := s.unreadable + 1 }, found)
      | some opened =>
        let dir := join [root U input, ATTACHMENTS, safeName U.normalize id (text "attachment")]
        let path := join [dir, safeName U.normalize opened.name (text "file")]
        let m := ⟨id, opened.name, opened.type, path⟩
        ({ s with metas := s.metas ++ [m], entries := s.entries ++ [⟨path, opened.bytes⟩] }, found ++ [m])

def pageAttachments (s : Progress) (pageID : Text) : Progress × List Attachment :=
  match input.attachments.list pageID with
  | none => ({ s with unreadable := s.unreadable + 1 }, [])
  | some refs => refs.foldl (attach U input) (s, [])

/-- `replace(/\s+/g, " ")`. -/
def collapse : Bool → Text → Text
  | _, [] => []
  | inSpace, c :: s => if isSpace c then (if inSpace then [] else [32]) ++ collapse true s else c :: collapse false s

/-- `trim` of a string. -/
def trim (s : Text) : Text := (s.dropWhile isSpace).rdropWhile isSpace

/-- The line of an attachment. -/
def attachmentLine (path : Text) (a : Attachment) : Option Text := do
  let link ← linkTo path a.path
  let name := a.name.flatMap fun c => if c = 91 ∨ c = 92 ∨ c = 93 then [92, c] else [c]
  pure (text "- [" ++ name ++ text "](" ++ link ++ text ")")

/-- The Markdown of a page. -/
def pageText (title base path raw : Text) (canvas : Bool) (converted : Option Text) (attachments : List Attachment) :
    Option Text := do
  let body ← match converted with
    | some body => some body
    | none => do
      let link ← linkTo path raw
      pure (text "_This page could not be converted to Markdown. Its content is kept as saved in [" ++ base ++
        text (if canvas then ".canvas" else "") ++ text ".json](" ++ link ++ text ")._")
  let canvasNote ← if canvas ∧ converted.isSome then do
      let link ← linkTo path raw
      pure (text "\n_Canvas page: positions and ink are in [" ++ base ++ text ".canvas.json](" ++ link ++ text ")._\n")
    else some []
  let lines ← attachments.mapM (attachmentLine path)
  pure (text "# " ++ collapse false title ++ text "\n\n" ++ body ++ text "\n" ++ canvasNote ++
    if attachments = [] then [] else text "\n## Attachments\n\n" ++ [10].intercalate lines ++ text "\n")

/-- One page of a list; nothing where the export throws. -/
def exportPage (sectionID : Option Text) (dir : Text) (s : Progress) (page : Note × ℕ) : Option Progress := do
  let title := if trim page.1.title = [] then text "Untitled page" else trim page.1.title
  let numbered := padStart (decimal (page.2 + 1)) 3 ++ 32 :: safeName U.normalize title (text "Untitled page")
  let (used, base) := name U.tables s.used dir numbered (text ".md")
  let path := join [dir, base ++ text ".md"]
  let (s, attachments) := pageAttachments U input { s with used } page.1.id
  let canvas := input.isCanvas page.1.body
  let raw := join [dir, base ++ text (if canvas then ".canvas" else "") ++ text ".json"]
  let converted := input.markdown page.1.body s.metas path
  let markdown ← pageText title base path raw canvas converted attachments
  let saved := if canvas ∨ converted.isNone then [⟨raw, Utf16.encode page.1.body⟩] else []
  pure { s with
    unreadable := s.unreadable + if converted.isSome then 0 else 1
    entries := s.entries ++ ⟨path, Utf16.encode markdown⟩ :: saved
    manifestPages := s.manifestPages ++
      [⟨page.1.id, page.1.title, sectionID, path, if canvas then some raw else none, attachments⟩] }

def exportList (s : Progress) (list : Option Text × Text) : Option Progress :=
  (pagesInSection input.notes input.sections (list.1.getD QUICK_NOTES)).zipIdx.foldlM (exportPage U input list.1 list.2) s

/-- The names that are taken at the start. -/
def reserved : Used :=
  let (used, _) := name U.tables [] (root U input) (text "manifest") (text ".json")
  (name U.tables used (root U input) ATTACHMENTS []).1

/-- `buildNotebookExport`: the entries, or nothing where it throws. -/
def buildNotebookExport : Option (List ZipEntry) := do
  let dirs := (namedGroups input).foldl (fun s g => (groupDir U input s (some g.id)).1) ⟨reserved U input, []⟩
  let (dirs, sections) := sectionDirs U input dirs (sortedSections input.sections)
  let (used, quickNotes) := name U.tables dirs.used (root U input) (text "Quick Notes") []
  let s ← (lists sections (join [root U input, quickNotes])).foldlM (exportList U input)
    { used, unreadable := input.unreadable }
  pure (⟨join [root U input, text "manifest.json"], input.manifest s.manifestPages s.unreadable⟩ :: s.entries)

end Build

end KyNotes.Export
