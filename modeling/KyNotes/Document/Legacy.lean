import KyNotes.Lib.JsValue
import KyNotes.Web.Values

/-!
# Documents of the first editor (`web/src/document.ts`)

A tree of nodes is read from what `JSON.parse` gave, which is any value: where a property of `null` is asked or something is
iterated that is no array, the reading throws, and its result is nothing. What it makes are blocks, each a record
(`legacyTiptap_blocks`).
-/

namespace KyNotes.Document

open Js
open Web (JsString)

/-- A property by its name. -/
abbrev prop (name : String) (value : Value) : Option Value := value.get (Utf16.ofText name)

/-- An object literal. -/
def object (members : List (String × Value)) : Value := .obj (members.map fun m => (Utf16.ofText m.1, m.2))

/-- A string literal. -/
def literal (s : String) : Value := .str (Utf16.ofText s)

/-- A property that is a string. -/
def stringProp (name : String) (value : Value) : Option JsString :=
  match prop name value with
  | some (.str s) => some s
  | _ => none

/-- `value.type === type`. -/
def hasType (type : String) (value : Value) : Bool := stringProp "type" value = some (Utf16.ofText type)

/-! ## Conversions of the language -/

section Conversions

variable (N : Numbers)

mutual

/-- What `join` makes of an element; an object with a `toString` of its own throws. -/
def joined : Value → Option JsString
  | .null => some []
  | .bool b => some (Utf16.ofText (if b then "true" else "false"))
  | .num (.finite x) => some ((N.write x).map UInt16.ofNat)
  | .num (.infinite negative) => some (Utf16.ofText (if negative then "-Infinity" else "Infinity"))
  | .str s => some s
  | .arr vs => joinedValues vs
  | .obj ms => if (ms.lookup (Utf16.ofText "toString")).isSome then none else some (Utf16.ofText "[object Object]")

def joinedValues : List Value → Option JsString
  | [] => some []
  | v :: vs => do
    let s ← joined v
    let t ← joinedRest vs
    pure (s ++ t)

def joinedRest : List Value → Option JsString
  | [] => some []
  | v :: vs => do
    let s ← joined v
    let t ← joinedRest vs
    pure (44 :: (s ++ t))

end

/-- `Number(value)`; NaN is no number. -/
def number : Option Value → Option (Option Js.Num)
  | none => some none
  | some .null => some (some (.finite 0))
  | some (.bool b) => some (some (.finite (if b then 1 else 0)))
  | some (.num n) => some (some n)
  | some (.str s) => some (N.ofString s)
  | some (.arr vs) => (joined N (.arr vs)).map N.ofString
  | some (.obj ms) => (joined N (.obj ms)).map N.ofString

/-- `Number(value) || 1`. -/
def level (value : Option Value) : Option Js.Num :=
  (number N value).map fun n => if n = none ∨ n = some (.finite 0) then .finite 1 else n.getD (.finite 1)

end Conversions

/-! ## Inline content -/

/-- What the marks of a text say. -/
structure Marks where
  styles : List (JsString × Value) := []
  href : Option JsString := none

def styleNames : List JsString := ["bold", "italic", "strike", "code", "underline"].map Utf16.ofText

def addMark (marks : Marks) (mark : Value) : Option Marks :=
  match mark with
  | .null => none
  | mark =>
    match stringProp "type" mark with
    | none => some marks
    | some type =>
      if styleNames.contains type then some { marks with styles := setMember marks.styles (type, .bool true) }
      else if type = Utf16.ofText "link" then
        some { marks with href := ((prop "attrs" mark).bind (stringProp "href")).or marks.href }
      else some marks

/-- `node.marks ?? []`; the characters of a string have no type. -/
def marksOf : Option Value → Option (List Value)
  | none | some .null | some (.str _) => some []
  | some (.arr vs) => some vs
  | some _ => none

/-- A text with its marks. The content of a link shares the styles that later marks set. -/
def textNode (s : JsString) (node : Value) : Option (List Value) := do
  let vs ← marksOf (prop "marks" node)
  let marks ← vs.foldlM addMark {}
  let content := object [("type", literal "text"), ("text", .str s), ("styles", .obj marks.styles)]
  match marks.href with
  | some href => pure [object [("type", literal "link"), ("href", .str href), ("content", .arr [content])]]
  | none => pure [content]

mutual

/-- `legacyInline(node.content)`. -/
def inlineContent : List (JsString × Value) → Option (List Value)
  | [] => some []
  | (k, v) :: ms => if k = Utf16.ofText "content" then legacyInline v else inlineContent ms

def legacyInline : Value → Option (List Value)
  | .arr nodes => inlineNodes nodes
  | _ => none

def inlineNodes : List Value → Option (List Value)
  | [] => some []
  | node :: nodes => do
    let inline ← inlineNode node
    let rest ← inlineNodes nodes
    pure (inline ++ rest)

def inlineNode : Value → Option (List Value)
  | .null => none
  | .obj ms =>
    if hasType "hardBreak" (.obj ms) then some [object [("type", literal "text"), ("text", literal "\n")]]
    else
      match hasType "text" (.obj ms), stringProp "text" (.obj ms) with
      | true, some s => textNode s (.obj ms)
      | _, _ => inlineContent ms
  | _ => some []

end

/-! ## Blocks -/

section Blocks

variable (N : Numbers)

/-- `child.text ?? ""`, joined. -/
def childText : Value → Option JsString
  | .null => none
  | child => (prop "text" child).elim (some []) (joined N)

/-- The text of a code block: `content?.map((child) => child.text ?? "").join("") ?? ""`. -/
def codeText : Option Value → Option JsString
  | none => some []
  | some (.arr children) => (children.mapM (childText N)).map List.flatten
  | some _ => none

def emptyParagraph : Value := object [("type", literal "paragraph"), ("content", literal "")]

/-- `{ ...first, type, children }`. -/
def listItem (type : String) (blocks : List Value) : Value :=
  let first := match blocks.head? with
    | some (.obj ms) => ms
    | _ => [(Utf16.ofText "type", literal "paragraph"), (Utf16.ofText "content", literal "")]
  .obj (setMember (setMember first (Utf16.ofText "type", literal type)) (Utf16.ofText "children", .arr blocks.tail))

/-- The blocks of the types without nodes of their own. -/
def leafBlock (node : Value) (content : List Value) : Option (Option Value) :=
  let attr (name : String) : JsString := ((prop "attrs" node).bind (stringProp name)).getD []
  if hasType "paragraph" node then some (some (object [("type", literal "paragraph"), ("content", .arr content)]))
  else if hasType "heading" node then
    (level N ((prop "attrs" node).bind (prop "level"))).map fun n =>
      some (object [("type", literal "heading"), ("props", object [("level", .num n)]), ("content", .arr content)])
  else if hasType "codeBlock" node then
    (codeText N (prop "content" node)).map fun s => some (object
      [("type", literal "codeBlock"), ("props", object [("language", .str (attr "language"))]), ("content", .str s)])
  else if hasType "image" node then some (some (object
    [("type", literal "image"), ("props", object [("url", .str (attr "src")), ("name", .str (attr "alt"))])]))
  else if hasType "horizontalRule" node then some (some (object [("type", literal "divider")]))
  else some none

mutual

/-- `legacyBlocks(node.content)`. -/
def blocksContent : List (JsString × Value) → Option (List Value)
  | [] => some []
  | (k, v) :: ms => if k = Utf16.ofText "content" then legacyBlocks v else blocksContent ms

def legacyBlocks : Value → Option (List Value)
  | .arr nodes => blockNodes nodes
  | _ => none

def blockNodes : List Value → Option (List Value)
  | [] => some []
  | node :: nodes => do
    let blocks ← blockNode node
    let rest ← blockNodes nodes
    pure (blocks ++ rest)

def blockNode : Value → Option (List Value)
  | .null => none
  | .obj ms => do
    let content ← inlineContent ms
    let leaf ← leafBlock N (.obj ms) content
    match leaf with
    | some block => pure [block]
    | none =>
      if hasType "bulletList" (.obj ms) then listContent "bulletListItem" ms
      else if hasType "orderedList" (.obj ms) then listContent "numberedListItem" ms
      else if hasType "blockquote" (.obj ms) then do
        let children ← blocksContent ms
        pure [object [("type", literal "quote"), ("children", .arr children)]]
      else blocksContent ms
  | _ => some []

/-- `legacyList(node.content, type)`. -/
def listContent (type : String) : List (JsString × Value) → Option (List Value)
  | [] => some []
  | (k, v) :: ms => if k = Utf16.ofText "content" then legacyList type v else listContent type ms

def legacyList (type : String) : Value → Option (List Value)
  | .arr nodes => listNodes type nodes
  | _ => none

def listNodes (type : String) : List Value → Option (List Value)
  | [] => some []
  | node :: nodes => do
    let items ← listNode type node
    let rest ← listNodes type nodes
    pure (items ++ rest)

/-- A node of a list, of which the list items only count. -/
def listNode (type : String) : Value → Option (List Value)
  | .null => none
  | .obj ms =>
    if hasType "listItem" (.obj ms) then do
      let blocks ← blocksContent ms
      pure [listItem type blocks]
    else some []
  | _ => some []

end

/-- `legacyTiptap`; nothing also where it throws. -/
def legacyTiptap (value : Value) : Option (List Value) :=
  let document :=
    if stringProp "format" value = some (Utf16.ofText "kynotes.tiptap.v1") then prop "document" value else some value
  match document with
  | some (.obj ms) => if hasType "doc" (.obj ms) then blocksContent N ms else none
  | _ => none

end Blocks

/-! ## What the blocks are -/

section Results

variable {N : Numbers}

/-- `isRecord`. -/
def isRecord : Value → Bool
  | .obj _ => true
  | _ => false

theorem object_wf {members : List (String × Value)} (names : List String) (hnames : members.map Prod.fst = names)
    (hkeys : Keys (names.map Utf16.ofText)) (h : ∀ m ∈ members, m.2.WF N) : (object members).WF N := by
  refine ⟨?_, membersWF_iff.mpr (List.forall_mem_map.mpr h)⟩
  rw [← hnames, List.map_map] at hkeys
  rw [List.map_map]
  exact hkeys

/-- A key that is no index is set at any place. -/
theorem keys_setMember {members : List (JsString × Value)} (h : Keys (members.map Prod.fst)) {k : JsString}
    (hk : indexOf k = none) (v : Value) : Keys ((setMember members (k, v)).map Prod.fst) := by
  refine ⟨nodup_setMember h.1 (k, v), ?_⟩
  rcases Js.keys_setMember members (k, v) with ⟨-, hkeys⟩ | ⟨-, hkeys⟩
  · rw [hkeys]
    exact h.2
  · rw [hkeys]
    refine List.pairwise_append.mpr ⟨h.2, List.pairwise_singleton .., fun k' _ k'' hk'' => ?_⟩
    rw [List.mem_singleton.mp hk'', keyLe_iff]
    intro n hn
    rw [hk] at hn
    cases hn

theorem wf_setMember {members : List (JsString × Value)} (h : (Value.obj members).WF N) {k : JsString} (hk : indexOf k = none)
    {v : Value} (hv : v.WF N) : (Value.obj (setMember members (k, v))).WF N := by
  refine ⟨keys_setMember h.1 hk v, membersWF_iff.mpr fun m hm => ?_⟩
  rcases mem_setMember hm with hm | rfl
  · exact membersWF_iff.mp h.2 m hm
  · exact hv

theorem get_wf {v w : Value} {k : JsString} (h : v.WF N) (hget : v.get k = some w) : w.WF N := by
  cases v with
  | obj ms =>
    obtain ⟨l, r, rfl, -⟩ := List.lookup_eq_some_iff.mp hget
    exact membersWF_iff.mp h.2 (k, w) (List.mem_append_right l List.mem_cons_self)
  | null | bool | num | str | arr => cases hget

/-! ### Inline content -/

theorem styleNames_index {type : JsString} (h : type ∈ styleNames) : indexOf type = none := by
  have hall : ∀ type ∈ styleNames, indexOf type = none := by decide
  exact hall type h

theorem addMark_wf {marks marks' : Marks} {mark : Value} (h : (Value.obj marks.styles).WF N)
    (hadd : addMark marks mark = some marks') : (Value.obj marks'.styles).WF N := by
  unfold addMark at hadd
  split at hadd
  · cases hadd
  · split at hadd
    · cases hadd
      exact h
    · split at hadd
      · next hstyle =>
        cases hadd
        exact wf_setMember h (styleNames_index (List.contains_iff_mem.mp hstyle)) trivial
      · split at hadd <;> cases hadd <;> exact h

theorem foldlM_addMark_wf {marks' : Marks} (vs : List Value) : ∀ {marks : Marks}, (Value.obj marks.styles).WF N →
    vs.foldlM addMark marks = some marks' → (Value.obj marks'.styles).WF N := by
  induction vs with
  | nil =>
    intro marks h hfold
    cases hfold
    exact h
  | cons v vs ih =>
    intro marks h hfold
    obtain ⟨next, hnext, hrest⟩ := Option.bind_eq_some_iff.mp hfold
    exact ih (addMark_wf h hnext) hrest

theorem textNode_wf {s : JsString} {node : Value} {r : List Value} (h : textNode s node = some r) : ∀ v ∈ r, v.WF N := by
  simp only [textNode, Option.bind_eq_bind, Option.bind_eq_some_iff] at h
  obtain ⟨vs, -, marks, hmarks, h⟩ := h
  have hempty : (Value.obj ({} : Marks).styles).WF N := ⟨⟨List.nodup_nil, .nil⟩, trivial⟩
  have hstyles : (Value.obj marks.styles).WF N := foldlM_addMark_wf vs hempty hmarks
  have hcontent : (object [("type", literal "text"), ("text", .str s), ("styles", .obj marks.styles)]).WF N := by
    refine object_wf ["type", "text", "styles"] rfl (by decide) ?_
    simp only [List.forall_mem_cons]
    exact ⟨trivial, trivial, hstyles, List.forall_mem_nil _⟩
  split at h
  · cases h
    refine List.forall_mem_singleton.mpr (object_wf ["type", "href", "content"] rfl (by decide) ?_)
    simp only [List.forall_mem_cons]
    exact ⟨trivial, trivial, ⟨hcontent, trivial⟩, List.forall_mem_nil _⟩
  · cases h
    exact List.forall_mem_singleton.mpr hcontent

theorem forall_mem_append {p : Value → Prop} {a b : Option (List Value)} {r : List Value}
    (ha : ∀ x, a = some x → ∀ v ∈ x, p v) (hb : ∀ x, b = some x → ∀ v ∈ x, p v)
    (h : (a.bind fun x => b.bind fun y => some (x ++ y)) = some r) : ∀ v ∈ r, p v := by
  obtain ⟨x, hx, h⟩ := Option.bind_eq_some_iff.mp h
  obtain ⟨y, hy, h⟩ := Option.bind_eq_some_iff.mp h
  cases h
  exact List.forall_mem_append.mpr ⟨ha x hx, hb y hy⟩

mutual

theorem inlineContent_wf : ∀ (ms : List (JsString × Value)) (r : List Value), inlineContent ms = some r → ∀ v ∈ r, v.WF N
  | [], r, h => by
    cases h
    exact List.forall_mem_nil _
  | (k, v) :: ms, r, h => by
    rw [inlineContent] at h
    split at h
    · exact legacyInline_wf v r h
    · exact inlineContent_wf ms r h

theorem legacyInline_wf : ∀ (v : Value) (r : List Value), legacyInline v = some r → ∀ v ∈ r, v.WF N
  | .arr nodes, r, h => inlineNodes_wf nodes r h
  | .null, _, h | .bool _, _, h | .num _, _, h | .str _, _, h | .obj _, _, h => by cases h

theorem inlineNodes_wf : ∀ (nodes : List Value) (r : List Value), inlineNodes nodes = some r → ∀ v ∈ r, v.WF N
  | [], r, h => by
    cases h
    exact List.forall_mem_nil _
  | node :: nodes, r, h => forall_mem_append (inlineNode_wf node) (inlineNodes_wf nodes) h

theorem inlineNode_wf : ∀ (node : Value) (r : List Value), inlineNode node = some r → ∀ v ∈ r, v.WF N
  | .null, _, h => by cases h
  | .bool _, _, h | .num _, _, h | .str _, _, h | .arr _, _, h => by
    cases h
    exact List.forall_mem_nil _
  | .obj ms, r, h => by
    rw [inlineNode] at h
    split at h
    · cases h
      refine List.forall_mem_singleton.mpr (object_wf ["type", "text"] rfl (by decide) ?_)
      simp only [List.forall_mem_cons]
      exact ⟨trivial, trivial, List.forall_mem_nil _⟩
    · split at h
      · exact textNode_wf h
      · exact inlineContent_wf ms r h

end

/-! ### Blocks -/

/-- A record with the keys and numbers of a value that was parsed. -/
def IsBlock (N : Numbers) (v : Value) : Prop := isRecord v = true ∧ v.WF N

/-- Nothing, or blocks. -/
def AreBlocks (N : Numbers) (r : Option (List Value)) : Prop := ∀ blocks, r = some blocks → ∀ v ∈ blocks, IsBlock N v

theorem AreBlocks.none : AreBlocks N none := fun _ h => by cases h

theorem AreBlocks.nil : AreBlocks N (some []) := fun _ h => by
  cases h
  exact List.forall_mem_nil _

theorem AreBlocks.values {r : Option (List Value)} (h : AreBlocks N r) {blocks : List Value} (hr : r = some blocks) :
    ValuesWF N blocks := valuesWF_iff.mpr fun v hv => (h blocks hr v hv).2

theorem number_isNumber {value : Option Value} (h : ∀ v, value = some v → v.WF N) {x : ℚ}
    (hn : number N value = some (some (.finite x))) : N.IsNumber x := by
  have hone : N.IsNumber 1 := by exact_mod_cast N.isNumber_natCast 1 (by decide)
  have hzero : N.IsNumber 0 := by exact_mod_cast N.isNumber_natCast 0 (by decide)
  have hstring : ∀ s : Option JsString, s.map N.ofString = some (some (.finite x)) → N.IsNumber x := by
    intro s hs
    obtain ⟨s, -, hs⟩ := Option.map_eq_some_iff.mp hs
    exact N.isNumber_ofString s x hs
  cases value with
  | none => cases hn
  | some v =>
    cases v with
    | null =>
      cases hn
      exact hzero
    | bool b =>
      cases hn
      split
      · exact hone
      · exact hzero
    | num n =>
      cases hn
      exact h _ rfl
    | str s => exact hstring (some s) hn
    | arr vs => exact hstring _ hn
    | obj ms => exact hstring _ hn

theorem level_wf {value : Option Value} (h : ∀ v, value = some v → v.WF N) {n : Js.Num} (hn : level N value = some n) :
    (Value.num n).WF N := by
  obtain ⟨m, hm, rfl⟩ := Option.map_eq_some_iff.mp hn
  have hone : N.IsNumber 1 := by exact_mod_cast N.isNumber_natCast 1 (by decide)
  split
  · exact hone
  · match m with
    | none => exact hone
    | some (.finite x) => exact number_isNumber h hm
    | some (.infinite _) => trivial

theorem leafBlock_isBlock {node v : Value} {content : List Value} (h : node.WF N) (hcontent : ValuesWF N content)
    (hleaf : leafBlock N node content = some (some v)) : IsBlock N v := by
  have hattr : ∀ name v, (prop "attrs" node).bind (prop name) = some v → v.WF N := by
    intro name v hv
    obtain ⟨attrs, hattrs, hv⟩ := Option.bind_eq_some_iff.mp hv
    exact get_wf (get_wf h hattrs) hv
  simp only [leafBlock] at hleaf
  split at hleaf
  · cases hleaf
    refine ⟨rfl, object_wf ["type", "content"] rfl (by decide) ?_⟩
    simp only [List.forall_mem_cons]
    exact ⟨trivial, hcontent, List.forall_mem_nil _⟩
  split at hleaf
  · obtain ⟨n, hn, heq⟩ := Option.map_eq_some_iff.mp hleaf
    cases heq
    have hprops : (object [("level", .num n)]).WF N :=
      object_wf ["level"] rfl (by decide) (List.forall_mem_singleton.mpr (level_wf (hattr "level") hn))
    refine ⟨rfl, object_wf ["type", "props", "content"] rfl (by decide) ?_⟩
    simp only [List.forall_mem_cons]
    exact ⟨trivial, hprops, hcontent, List.forall_mem_nil _⟩
  split at hleaf
  · obtain ⟨s, -, heq⟩ := Option.map_eq_some_iff.mp hleaf
    cases heq
    have hprops : ∀ s, (object [("language", .str s)]).WF N := fun s =>
      object_wf ["language"] rfl (by decide) (List.forall_mem_singleton.mpr trivial)
    refine ⟨rfl, object_wf ["type", "props", "content"] rfl (by decide) ?_⟩
    simp only [List.forall_mem_cons]
    exact ⟨trivial, hprops _, trivial, List.forall_mem_nil _⟩
  split at hleaf
  · cases hleaf
    have hprops : ∀ s t, (object [("url", .str s), ("name", .str t)]).WF N := fun s t => by
      refine object_wf ["url", "name"] rfl (by decide) ?_
      simp only [List.forall_mem_cons]
      exact ⟨trivial, trivial, List.forall_mem_nil _⟩
    refine ⟨rfl, object_wf ["type", "props"] rfl (by decide) ?_⟩
    simp only [List.forall_mem_cons]
    exact ⟨trivial, hprops _ _, List.forall_mem_nil _⟩
  split at hleaf
  · cases hleaf
    exact ⟨rfl, object_wf ["type"] rfl (by decide) (List.forall_mem_singleton.mpr trivial)⟩
  · cases hleaf

theorem emptyParagraph_isBlock : IsBlock N emptyParagraph := by
  refine ⟨rfl, object_wf ["type", "content"] rfl (by decide) ?_⟩
  simp only [List.forall_mem_cons]
  exact ⟨trivial, trivial, List.forall_mem_nil _⟩

theorem listItem_isBlock (type : String) {blocks : List Value} (h : ∀ v ∈ blocks, IsBlock N v) :
    IsBlock N (listItem type blocks) := by
  have hchildren : (Value.arr blocks.tail).WF N := valuesWF_iff.mpr fun v hv => (h v (List.mem_of_mem_tail hv)).2
  have htype : (literal type).WF N := trivial
  have hset : ∀ first, (Value.obj first).WF N → (Value.obj (setMember (setMember first (Utf16.ofText "type", literal type))
      (Utf16.ofText "children", .arr blocks.tail))).WF N :=
    fun first hfirst => wf_setMember (wf_setMember hfirst (by decide) htype) (by decide) hchildren
  refine ⟨rfl, hset _ ?_⟩
  split
  · next ms hms => exact (h _ (List.mem_of_mem_head? hms)).2
  · exact emptyParagraph_isBlock.2

theorem AreBlocks.append {a b : Option (List Value)} (ha : AreBlocks N a) (hb : AreBlocks N b) :
    AreBlocks N (a.bind fun x => b.bind fun y => some (x ++ y)) := fun _ h => forall_mem_append ha hb h

mutual

theorem blocksContent_areBlocks : ∀ (ms : List (JsString × Value)), MembersWF N ms → AreBlocks N (blocksContent N ms)
  | [], _ => .nil
  | (k, v) :: ms, h => by
    rw [blocksContent]
    split
    · exact legacyBlocks_areBlocks v h.1
    · exact blocksContent_areBlocks ms h.2

theorem legacyBlocks_areBlocks : ∀ v : Value, v.WF N → AreBlocks N (legacyBlocks N v)
  | .arr nodes, h => blockNodes_areBlocks nodes h
  | .null, _ | .bool _, _ | .num _, _ | .str _, _ | .obj _, _ => .none

theorem blockNodes_areBlocks : ∀ nodes : List Value, ValuesWF N nodes → AreBlocks N (blockNodes N nodes)
  | [], _ => .nil
  | node :: nodes, h => (blockNode_areBlocks node h.1).append (blockNodes_areBlocks nodes h.2)

theorem blockNode_areBlocks : ∀ node : Value, node.WF N → AreBlocks N (blockNode N node)
  | .null, _ => .none
  | .bool _, _ | .num _, _ | .str _, _ | .arr _, _ => .nil
  | .obj ms, h => by
    intro blocks hblocks
    rw [blockNode, Option.bind_eq_bind, Option.bind_eq_some_iff] at hblocks
    obtain ⟨content, hcontent, hblocks⟩ := hblocks
    obtain ⟨leaf, hleaf, hblocks⟩ := Option.bind_eq_some_iff.mp hblocks
    cases leaf with
    | some v =>
      cases hblocks
      have hinline : ValuesWF N content := valuesWF_iff.mpr (inlineContent_wf ms content hcontent)
      exact List.forall_mem_singleton.mpr (leafBlock_isBlock h hinline hleaf)
    | none =>
      simp only at hblocks
      split at hblocks
      · exact listContent_areBlocks _ ms h.2 blocks hblocks
      split at hblocks
      · exact listContent_areBlocks _ ms h.2 blocks hblocks
      split at hblocks
      · obtain ⟨children, hchildren, hblocks⟩ := Option.bind_eq_some_iff.mp hblocks
        cases hblocks
        have hwf : ValuesWF N children := (blocksContent_areBlocks ms h.2).values hchildren
        refine List.forall_mem_singleton.mpr ⟨rfl, object_wf ["type", "children"] rfl (by decide) ?_⟩
        simp only [List.forall_mem_cons]
        exact ⟨trivial, hwf, List.forall_mem_nil _⟩
      · exact blocksContent_areBlocks ms h.2 blocks hblocks

theorem listContent_areBlocks (type : String) : ∀ (ms : List (JsString × Value)), MembersWF N ms →
    AreBlocks N (listContent N type ms)
  | [], _ => .nil
  | (k, v) :: ms, h => by
    rw [listContent]
    split
    · exact legacyList_areBlocks type v h.1
    · exact listContent_areBlocks type ms h.2

theorem legacyList_areBlocks (type : String) : ∀ v : Value, v.WF N → AreBlocks N (legacyList N type v)
  | .arr nodes, h => listNodes_areBlocks type nodes h
  | .null, _ | .bool _, _ | .num _, _ | .str _, _ | .obj _, _ => .none

theorem listNodes_areBlocks (type : String) : ∀ nodes : List Value, ValuesWF N nodes → AreBlocks N (listNodes N type nodes)
  | [], _ => .nil
  | node :: nodes, h => (listNode_areBlocks type node h.1).append (listNodes_areBlocks type nodes h.2)

theorem listNode_areBlocks (type : String) : ∀ node : Value, node.WF N → AreBlocks N (listNode N type node)
  | .null, _ => .none
  | .bool _, _ | .num _, _ | .str _, _ | .arr _, _ => .nil
  | .obj ms, h => by
    rw [listNode]
    split
    · intro items hitems
      obtain ⟨blocks, hblocks, hitems⟩ := Option.bind_eq_some_iff.mp hitems
      cases hitems
      exact List.forall_mem_singleton.mpr (listItem_isBlock type (blocksContent_areBlocks ms h.2 blocks hblocks))
    · exact .nil

end

/-- What a document is converted to are blocks. -/
theorem legacyTiptap_areBlocks {value : Value} (h : value.WF N) : AreBlocks N (legacyTiptap N value) := by
  have hdocument : ∀ document, (if stringProp "format" value = some (Utf16.ofText "kynotes.tiptap.v1")
      then prop "document" value else some value) = some document → document.WF N := by
    intro document heq
    split at heq
    · exact get_wf h heq
    · cases heq
      exact h
  simp only [legacyTiptap]
  split
  · next ms hms =>
    split
    · exact blocksContent_areBlocks ms (hdocument _ hms).2
    · exact .none
  · exact .none

end Results

end KyNotes.Document
