import KyNotes.Document.Legacy
import Mathlib.Data.List.Forall2

/-!
# Levels of headings (`web/src/document.ts`)

The numbers in the blocks of an older document are the levels of its headings (`legacyTiptap_finite_iff`), but for those of
the children of the first block of a list item, which `{ ...first, type, children }` leaves out.
-/

namespace KyNotes.Document

open Js
open Web (JsString)

/-- The level of a block, where it has one, and those under it. -/
structure Levels where
  own : List Js.Num := []
  children : List Js.Num := []

def Levels.all (l : Levels) : List Js.Num := l.own ++ l.children

/-- Of `{ ...first, type, children }`. -/
def Levels.listItem (levels : List Levels) : Levels where
  own := levels.head?.elim [] Levels.own
  children := levels.tail.flatMap Levels.all

section Nodes

variable (N : Numbers)

/-- The levels of the blocks without nodes of their own. -/
def leafLevels (node : Value) : Option Levels :=
  if hasType "paragraph" node then some {}
  else if hasType "heading" node then some { own := (level N ((prop "attrs" node).bind (prop "level"))).toList }
  else if hasType "codeBlock" node || hasType "image" node || hasType "horizontalRule" node then some {}
  else none

mutual

/-- The levels of the nodes of `content`, block by block; of a list, those of its items. -/
def contentLevels (list : Bool) : List (JsString × Value) → List Levels
  | [] => []
  | (k, v) :: ms => if k = Utf16.ofText "content" then valueLevels list v else contentLevels list ms

def valueLevels (list : Bool) : Value → List Levels
  | .arr nodes => nodesLevels list nodes
  | _ => []

def nodesLevels (list : Bool) : List Value → List Levels
  | [] => []
  | node :: nodes => nodeLevels list node ++ nodesLevels list nodes

def nodeLevels (list : Bool) : Value → List Levels
  | .obj ms =>
    if list then
      if hasType "listItem" (.obj ms) then [.listItem (contentLevels false ms)] else []
    else
      match leafLevels N (.obj ms) with
      | some l => [l]
      | none =>
        if hasType "bulletList" (.obj ms) || hasType "orderedList" (.obj ms) then contentLevels true ms
        else if hasType "blockquote" (.obj ms) then [{ children := (contentLevels false ms).flatMap Levels.all }]
        else contentLevels false ms
  | _ => []

end

/-- The levels of the headings that `legacyTiptap` makes blocks of. -/
def headingLevels (value : Value) : List Js.Num :=
  let document :=
    if stringProp "format" value = some (Utf16.ofText "kynotes.tiptap.v1") then prop "document" value else some value
  match document with
  | some (.obj ms) => (contentLevels N false ms).flatMap Levels.all
  | _ => []

end Nodes

def AllFinite (levels : List Js.Num) : Prop := ∀ n ∈ levels, (Value.num n).Finite

/-! ## Inline content has no numbers -/

theorem addMark_finite {marks marks' : Marks} {mark : Value} (h : MembersFinite marks.styles)
    (hadd : addMark marks mark = some marks') : MembersFinite marks'.styles := by
  unfold addMark at hadd
  split at hadd
  · cases hadd
  · split at hadd
    · cases hadd
      exact h
    · split at hadd
      · cases hadd
        refine membersFinite_iff.mpr fun m hm => ?_
        rcases mem_setMember hm with hm | rfl
        · exact membersFinite_iff.mp h m hm
        · trivial
      · split at hadd <;> cases hadd <;> exact h

theorem foldlM_addMark_finite {marks' : Marks} (vs : List Value) : ∀ {marks : Marks}, MembersFinite marks.styles →
    vs.foldlM addMark marks = some marks' → MembersFinite marks'.styles := by
  induction vs with
  | nil =>
    intro marks h hfold
    cases hfold
    exact h
  | cons v vs ih =>
    intro marks h hfold
    obtain ⟨next, hnext, hrest⟩ := Option.bind_eq_some_iff.mp hfold
    exact ih (addMark_finite h hnext) hrest

theorem textNode_finite {s : JsString} {node : Value} {r : List Value} (h : textNode s node = some r) : ∀ v ∈ r, v.Finite := by
  simp only [textNode, Option.bind_eq_bind, Option.bind_eq_some_iff] at h
  obtain ⟨vs, -, marks, hmarks, h⟩ := h
  have hempty : MembersFinite ({} : Marks).styles := trivial
  have hstyles : MembersFinite marks.styles := foldlM_addMark_finite vs hempty hmarks
  have hcontent : (object [("type", literal "text"), ("text", .str s), ("styles", .obj marks.styles)]).Finite :=
    ⟨trivial, trivial, hstyles, trivial⟩
  split at h
  · cases h
    exact List.forall_mem_singleton.mpr ⟨trivial, trivial, ⟨hcontent, trivial⟩, trivial⟩
  · cases h
    exact List.forall_mem_singleton.mpr hcontent

mutual

theorem inlineContent_finite : ∀ (ms : List (JsString × Value)) (r : List Value), inlineContent ms = some r → ∀ v ∈ r, v.Finite
  | [], r, h => by
    cases h
    exact List.forall_mem_nil _
  | (k, v) :: ms, r, h => by
    rw [inlineContent] at h
    split at h
    · exact legacyInline_finite v r h
    · exact inlineContent_finite ms r h

theorem legacyInline_finite : ∀ (v : Value) (r : List Value), legacyInline v = some r → ∀ v ∈ r, v.Finite
  | .arr nodes, r, h => inlineNodes_finite nodes r h
  | .null, _, h | .bool _, _, h | .num _, _, h | .str _, _, h | .obj _, _, h => by cases h

theorem inlineNodes_finite : ∀ (nodes : List Value) (r : List Value), inlineNodes nodes = some r → ∀ v ∈ r, v.Finite
  | [], r, h => by
    cases h
    exact List.forall_mem_nil _
  | node :: nodes, r, h => forall_mem_append (inlineNode_finite node) (inlineNodes_finite nodes) h

theorem inlineNode_finite : ∀ (node : Value) (r : List Value), inlineNode node = some r → ∀ v ∈ r, v.Finite
  | .null, _, h => by cases h
  | .bool _, _, h | .num _, _, h | .str _, _, h | .arr _, _, h => by
    cases h
    exact List.forall_mem_nil _
  | .obj ms, r, h => by
    rw [inlineNode] at h
    split at h
    · cases h
      exact List.forall_mem_singleton.mpr ⟨trivial, trivial, trivial⟩
    · split at h
      · exact textNode_finite h
      · exact inlineContent_finite ms r h

end

/-! ## The numbers of blocks -/

/-- A record whose children have the levels under it for numbers, and which beside them has its own. -/
def HasLevels (block : Value) (l : Levels) : Prop :=
  ∃ ms, block = .obj ms ∧ (∀ m ∈ ms, m.1 = Utf16.ofText "type" → m.2.Finite) ∧
    ((∀ m ∈ ms, m.1 ≠ Utf16.ofText "children" → m.2.Finite) ↔ AllFinite l.own) ∧
    ((∀ m ∈ ms, m.1 = Utf16.ofText "children" → m.2.Finite) ↔ AllFinite l.children)

theorem allFinite_append {a b : List Js.Num} : AllFinite (a ++ b) ↔ AllFinite a ∧ AllFinite b := List.forall_mem_append

theorem HasLevels.finite_iff {block : Value} {l : Levels} (h : HasLevels block l) : block.Finite ↔ AllFinite l.all := by
  obtain ⟨ms, rfl, -, hown, hchildren⟩ := h
  rw [Levels.all, allFinite_append, ← hown, ← hchildren, Value.Finite, membersFinite_iff]
  constructor
  · exact fun h => ⟨fun m hm _ => h m hm, fun m hm _ => h m hm⟩
  · rintro ⟨h, h'⟩ m hm
    by_cases hk : m.1 = Utf16.ofText "children"
    · exact h' m hm hk
    · exact h m hm hk

theorem forall₂_finite_iff {blocks : List Value} {levels : List Levels} (h : List.Forall₂ HasLevels blocks levels) :
    ValuesFinite blocks ↔ AllFinite (levels.flatMap Levels.all) := by
  induction h with
  | nil => exact iff_of_true trivial (List.forall_mem_nil _)
  | cons hb _ ih => rw [ValuesFinite, List.flatMap_cons, allFinite_append, hb.finite_iff, ih]

/-- A record of values that are finite has no levels. -/
theorem hasLevels_of_finite {ms : List (JsString × Value)} (h : ∀ m ∈ ms, m.2.Finite) : HasLevels (.obj ms) {} :=
  ⟨ms, rfl, fun m hm _ => h m hm, iff_of_true (fun m hm _ => h m hm) (List.forall_mem_nil _),
    iff_of_true (fun m hm _ => h m hm) (List.forall_mem_nil _)⟩

section Blocks

variable {N : Numbers}

theorem leafBlock_levels {node : Value} {content : List Value} {leaf : Option Value} (hcontent : ValuesFinite content)
    (h : leafBlock N node content = some leaf) : Option.Rel HasLevels leaf (leafLevels N node) := by
  have hrecord : ∀ members : List (String × Value), (∀ m ∈ members, m.2.Finite) → HasLevels (object members) {} :=
    fun members hm => hasLevels_of_finite (List.forall_mem_map.mpr hm)
  simp only [leafBlock] at h
  unfold leafLevels
  split at h
  · next hparagraph =>
    cases h
    rw [if_pos hparagraph]
    refine .some (hrecord _ ?_)
    simp only [List.forall_mem_cons]
    exact ⟨trivial, hcontent, List.forall_mem_nil _⟩
  next hparagraph =>
  rw [if_neg hparagraph]
  split at h
  · next hheading =>
    rw [if_pos hheading]
    obtain ⟨n, hn, rfl⟩ := Option.map_eq_some_iff.mp h
    rw [hn]
    refine .some ⟨_, rfl, ?_⟩
    simp only [List.map_cons, List.map_nil, List.forall_mem_cons]
    refine ⟨⟨fun _ => trivial, fun hk => absurd hk (by decide), fun hk => absurd hk (by decide), List.forall_mem_nil _⟩, ?_, ?_⟩
    · constructor
      · exact fun h => List.forall_mem_singleton.mpr (h.2.1 (by decide)).1
      · exact fun h => ⟨fun _ => trivial, fun _ => ⟨h n List.mem_cons_self, trivial⟩, fun _ => hcontent, List.forall_mem_nil _⟩
    · exact iff_of_true ⟨fun hk => absurd hk (by decide), fun hk => absurd hk (by decide), fun hk => absurd hk (by decide),
        List.forall_mem_nil _⟩ (List.forall_mem_nil _)
  next hheading =>
  rw [if_neg hheading]
  split at h
  · next hcode =>
    obtain ⟨s, -, rfl⟩ := Option.map_eq_some_iff.mp h
    rw [if_pos (by rw [hcode]; rfl)]
    refine .some (hrecord _ ?_)
    simp only [List.forall_mem_cons]
    exact ⟨trivial, ⟨trivial, trivial⟩, trivial, List.forall_mem_nil _⟩
  next hcode =>
  split at h
  · next himage =>
    cases h
    rw [if_pos (by rw [himage, Bool.or_true]; rfl)]
    refine .some (hrecord _ ?_)
    simp only [List.forall_mem_cons]
    exact ⟨trivial, ⟨trivial, trivial, trivial⟩, List.forall_mem_nil _⟩
  next himage =>
  split at h
  · next hrule =>
    cases h
    rw [if_pos (by rw [hrule, Bool.or_true])]
    exact .some (hrecord _ (List.forall_mem_singleton.mpr trivial))
  next hrule =>
  cases h
  rw [if_neg (by simp [hcode, himage, hrule])]
  exact .none

theorem listItem_levels (type : String) {blocks : List Value} {levels : List Levels} (h : List.Forall₂ HasLevels blocks levels) :
    HasLevels (listItem type blocks) (.listItem levels) := by
  have htail : List.Forall₂ HasLevels blocks.tail levels.tail := by
    cases h with
    | nil => exact .nil
    | cons _ h => exact h
  have hset : ∀ (first : List (JsString × Value)) (l : Levels), HasLevels (.obj first) l →
      HasLevels (.obj (setMember (setMember first (Utf16.ofText "type", literal type)) (Utf16.ofText "children", .arr blocks.tail)))
        { own := l.own, children := levels.tail.flatMap Levels.all } := by
    rintro first l ⟨ms, heq, htype, hown, -⟩
    cases heq
    have hne : Utf16.ofText "type" ≠ Utf16.ofText "children" := by decide
    have hchildren : (Value.arr blocks.tail).Finite ↔ AllFinite (levels.tail.flatMap Levels.all) := by
      rw [Value.Finite, forall₂_finite_iff htail]
    refine ⟨_, rfl, ?_, ?_, ?_⟩
    · intro m hm hk
      rcases mem_setMember hm with hm | rfl
      · rcases mem_setMember hm with hm | rfl
        · exact htype m hm hk
        · trivial
      · exact absurd hk hne.symm
    · rw [← hown]
      constructor
      · intro hfinite m hm hk
        by_cases ht : m.1 = Utf16.ofText "type"
        · exact htype m hm ht
        · exact hfinite m (mem_setMember_iff.mpr (.inl ⟨mem_setMember_iff.mpr (.inl ⟨hm, ht⟩), hk⟩)) hk
      · intro hfinite m hm hk
        rcases mem_setMember hm with hm | rfl
        · rcases mem_setMember hm with hm | rfl
          · exact hfinite m hm hk
          · trivial
        · exact absurd rfl hk
    · rw [← hchildren]
      constructor
      · exact fun hfinite => hfinite _ (mem_setMember_iff.mpr (.inr rfl)) rfl
      · intro hfinite m hm hk
        rcases mem_setMember_iff.mp hm with ⟨-, hne'⟩ | rfl
        · exact absurd hk hne'
        · exact hfinite
  cases h with
  | nil => exact hset _ {} (hasLevels_of_finite (List.forall_mem_cons.mpr ⟨trivial, List.forall_mem_singleton.mpr trivial⟩))
  | cons hb _ =>
    obtain ⟨ms, rfl, hrest⟩ := hb
    exact hset ms _ ⟨ms, rfl, hrest⟩

theorem quote_levels {blocks : List Value} {levels : List Levels} (h : List.Forall₂ HasLevels blocks levels) :
    HasLevels (object [("type", literal "quote"), ("children", .arr blocks)]) { children := levels.flatMap Levels.all } := by
  have hchildren : (Value.arr blocks).Finite ↔ AllFinite (levels.flatMap Levels.all) := by
    rw [Value.Finite, forall₂_finite_iff h]
  refine ⟨_, rfl, ?_⟩
  simp only [List.map_cons, List.map_nil, List.forall_mem_cons]
  refine ⟨⟨fun _ => trivial, fun hk => absurd hk (by decide), List.forall_mem_nil _⟩, ?_, ?_⟩
  · exact iff_of_true ⟨fun _ => trivial, fun hk => absurd rfl hk, List.forall_mem_nil _⟩ (List.forall_mem_nil _)
  · rw [← hchildren]
    exact ⟨fun h => h.2.1 trivial, fun h => ⟨fun _ => trivial, fun _ => h, List.forall_mem_nil _⟩⟩

/-- Nothing, or blocks with the levels. -/
def HaveLevels (r : Option (List Value)) (levels : List Levels) : Prop :=
  ∀ blocks, r = some blocks → List.Forall₂ HasLevels blocks levels

theorem HaveLevels.none {levels : List Levels} : HaveLevels none levels := fun _ h => by cases h

theorem HaveLevels.nil : HaveLevels (some []) [] := fun _ h => by
  cases h
  exact .nil

theorem HaveLevels.append {a b : Option (List Value)} {l l' : List Levels} (ha : HaveLevels a l) (hb : HaveLevels b l') :
    HaveLevels (a.bind fun x => b.bind fun y => some (x ++ y)) (l ++ l') := by
  intro blocks h
  obtain ⟨x, hx, h⟩ := Option.bind_eq_some_iff.mp h
  obtain ⟨y, hy, h⟩ := Option.bind_eq_some_iff.mp h
  cases h
  exact List.rel_append (ha x hx) (hb y hy)

mutual

theorem blocksContent_levels : ∀ ms : List (JsString × Value), HaveLevels (blocksContent N ms) (contentLevels N false ms)
  | [] => .nil
  | (k, v) :: ms => by
    rw [blocksContent, contentLevels]
    split
    · exact legacyBlocks_levels v
    · exact blocksContent_levels ms

theorem legacyBlocks_levels : ∀ v : Value, HaveLevels (legacyBlocks N v) (valueLevels N false v)
  | .arr nodes => blockNodes_levels nodes
  | .null | .bool _ | .num _ | .str _ | .obj _ => .none

theorem blockNodes_levels : ∀ nodes : List Value, HaveLevels (blockNodes N nodes) (nodesLevels N false nodes)
  | [] => .nil
  | node :: nodes => (blockNode_levels node).append (blockNodes_levels nodes)

theorem blockNode_levels : ∀ node : Value, HaveLevels (blockNode N node) (nodeLevels N false node)
  | .null => .none
  | .bool _ | .num _ | .str _ | .arr _ => .nil
  | .obj ms => by
    intro blocks hblocks
    rw [blockNode, Option.bind_eq_bind, Option.bind_eq_some_iff] at hblocks
    obtain ⟨content, hcontent, hblocks⟩ := hblocks
    obtain ⟨leaf, hleaf, hblocks⟩ := Option.bind_eq_some_iff.mp hblocks
    have hinline : ValuesFinite content := valuesFinite_iff.mpr (inlineContent_finite ms content hcontent)
    have hrel := leafBlock_levels hinline hleaf
    rw [nodeLevels, if_neg Bool.false_ne_true]
    generalize leafLevels N (.obj ms) = levels at hrel
    cases hrel with
    | some hlevels =>
      cases hblocks
      exact .cons hlevels .nil
    | none =>
      dsimp only at hblocks ⊢
      split at hblocks
      · next hbullet =>
        rw [if_pos (by rw [hbullet]; rfl)]
        exact listContent_levels _ ms blocks hblocks
      next hbullet =>
      split at hblocks
      · next hordered =>
        rw [if_pos (by rw [hordered, Bool.or_true])]
        exact listContent_levels _ ms blocks hblocks
      next hordered =>
      rw [if_neg (by simp [hbullet, hordered])]
      split at hblocks
      · next hquote =>
        obtain ⟨children, hchildren, hblocks⟩ := Option.bind_eq_some_iff.mp hblocks
        cases hblocks
        rw [if_pos hquote]
        exact .cons (quote_levels (blocksContent_levels ms children hchildren)) .nil
      next hquote =>
      rw [if_neg hquote]
      exact blocksContent_levels ms blocks hblocks

theorem listContent_levels (type : String) : ∀ ms : List (JsString × Value),
    HaveLevels (listContent N type ms) (contentLevels N true ms)
  | [] => .nil
  | (k, v) :: ms => by
    rw [listContent, contentLevels]
    split
    · exact legacyList_levels type v
    · exact listContent_levels type ms

theorem legacyList_levels (type : String) : ∀ v : Value, HaveLevels (legacyList N type v) (valueLevels N true v)
  | .arr nodes => listNodes_levels type nodes
  | .null | .bool _ | .num _ | .str _ | .obj _ => .none

theorem listNodes_levels (type : String) : ∀ nodes : List Value, HaveLevels (listNodes N type nodes) (nodesLevels N true nodes)
  | [] => .nil
  | node :: nodes => (listNode_levels type node).append (listNodes_levels type nodes)

theorem listNode_levels (type : String) : ∀ node : Value, HaveLevels (listNode N type node) (nodeLevels N true node)
  | .null => .none
  | .bool _ | .num _ | .str _ | .arr _ => .nil
  | .obj ms => by
    rw [listNode, nodeLevels, if_pos rfl]
    split
    · intro items hitems
      obtain ⟨blocks, hblocks, hitems⟩ := Option.bind_eq_some_iff.mp hitems
      cases hitems
      exact .cons (listItem_levels type (blocksContent_levels ms blocks hblocks)) .nil
    · exact .nil

end

/-- What a document is converted to has only finite numbers exactly where the levels of its headings are finite. -/
theorem legacyTiptap_finite_iff {value : Value} {blocks : List Value} (h : legacyTiptap N value = some blocks) :
    ValuesFinite blocks ↔ AllFinite (headingLevels N value) := by
  simp only [legacyTiptap] at h
  unfold headingLevels
  split at h
  · next ms hms =>
    split at h
    · rw [hms]
      exact forall₂_finite_iff (blocksContent_levels ms blocks h)
    · cases h
  · cases h

end Blocks

end KyNotes.Document
