import KyNotes.Bridge.Reencoded

/-!
# What the browser shows of a decoded body

Of a value that Go decoded the browser makes the same strokes, and the same boxes but for their blocks, when Go has encoded it
again. Which document a body is, both agree on (`format_iff`).
-/

namespace KyNotes.Bridge.Markdown

open Cleanup.Stored JsonText
open Js (Value Numbers)
open Document (CanvasBox CanvasStroke CanvasPage openPage prop stringProp itemId isItemId finiteOf clamp elements
  isRecord pointsOf parseBox parseStroke parseItems addItem canvasValue noteDocument)

variable (N : Numbers)

/-! ## The parts of a page -/

section Parts

variable {t : Tree} {name : String}

theorem get_good (h : t.Good) {v : Tree} (hget : get t name = some v) : v.Good := by
  cases t with
  | obj ms =>
    obtain ⟨m, hm, hmv⟩ := List.mem_map.mp (Json.lastValue_mem hget)
    obtain rfl : m.2 = v := congrArg Prod.snd hmv
    exact ((allMembers_iff _ _).mp h m hm).2
  | null | bool | num | str | arr => cases hget

theorem list_good (h : t.Good) (name : String) : ∀ v ∈ list (get t name), v.Good := by
  cases hget : get t name with
  | none => exact nofun
  | some v =>
    cases v with
    | arr vs => exact (allValues_iff _ _).mp (get_good h hget)
    | null | bool | num | str | obj => exact nofun

theorem stringProp_val (h : t.Good) (hname : Proper name) :
    stringProp name (val N t) = (get t name).bind fun v => match v with
      | .str s => some (key s)
      | _ => none := by
  rw [stringProp, prop_val N h hname]
  cases get t name with
  | none => rfl
  | some v =>
    cases v with
    | arr vs => simp [val_arr]
    | obj ms => simp [val_obj]
    | null | bool | num | str => rfl

theorem stringProp_reencode (h : t.Good) (hname : Proper name) :
    stringProp name (val N (reencode t)) = (stringProp name (val N t)).map Utf16.toWellFormed := by
  rw [stringProp_val N h hname, stringProp, prop_reencode N]
  cases hg : get t name with
  | none => rfl
  | some v =>
    cases v with
    | arr vs => simp [val_reencode_arr]
    | obj ms => simp [val_reencode_obj]
    | null | bool | num => rfl
    | str s =>
      have hchars : Chars s := get_good h hg
      exact congrArg some (key_goString hchars)

theorem isItemId_wellFormed {s : List UInt16} (h : isItemId s = true) : Utf16.IsWellFormed s := by
  refine Utf16.isWellFormed_of_all fun u hu => ?_
  simp only [isItemId, decide_eq_true_eq, List.all_eq_true] at h
  have hunit := h.2.2 u hu
  simp only [Document.isIdUnit, decide_eq_true_eq] at hunit
  simp only [Utf16.isHigh, Utf16.isLow, decide_eq_false_iff_not]
  omega

theorem isItemId_toWellFormed (s : List UInt16) :
    (some (Utf16.toWellFormed s)).filter isItemId = (some s).filter isItemId := by
  by_cases h : Utf16.IsWellFormed s
  · rw [h]
  · have hs : isItemId s = false := Bool.eq_false_iff.mpr fun hid => h (isItemId_wellFormed hid)
    have hs' : isItemId (Utf16.toWellFormed s) = false := by
      refine Bool.eq_false_iff.mpr fun hid => h (Utf16.isWellFormed_of_not_mem fun hmem => ?_)
      simp only [isItemId, decide_eq_true_eq, List.all_eq_true] at hid
      exact absurd (hid.2.2 _ hmem) (by decide)
    rw [Option.filter_some_neg (by rw [hs']), Option.filter_some_neg (by rw [hs])]

theorem itemId_reencode (h : t.Good) : itemId (val N (reencode t)) = itemId (val N t) := by
  rw [itemId, itemId, stringProp_reencode N h (by decide)]
  cases stringProp "id" (val N t) with
  | none => rfl
  | some s => exact isItemId_toWellFormed s

theorem finiteOf_reencode (t : Tree) : finiteOf (some (val N (reencode t))) = finiteOf (some (val N t)) := by
  cases t with
  | arr vs => rw [val_arr, val_reencode_arr]; rfl
  | obj ms => rw [val_obj, val_reencode_obj]; rfl
  | null | bool | num | str => rfl

theorem clamp_reencode (h : t.Good) (hname : Proper name) (min max fallback : ℚ) :
    clamp (prop name (val N (reencode t))) min max fallback = clamp (prop name (val N t)) min max fallback := by
  have hfinite : finiteOf (prop name (val N (reencode t))) = finiteOf (prop name (val N t)) := by
    rw [prop_reencode N, prop_val N h hname]
    cases get t name with
    | none => rfl
    | some v => exact finiteOf_reencode N v
  rw [clamp, clamp, hfinite]

theorem elements_val (h : t.Good) (hname : Proper name) :
    elements (prop name (val N t)) = (list (get t name)).map (val N) := by
  rw [prop_val N h hname]
  cases get t name with
  | none => rfl
  | some v =>
    cases v with
    | arr vs => simp [val_arr, elements, list]
    | obj ms => simp [val_obj, elements, list]
    | null | bool | num | str => rfl

theorem elements_reencode :
    elements (prop name (val N (reencode t))) = (list (get t name)).map fun v => val N (reencode v) := by
  rw [prop_reencode N]
  cases get t name with
  | none => rfl
  | some v =>
    cases v with
    | arr vs => simp [val_reencode_arr, elements, list]
    | obj ms => simp [val_reencode_obj, elements, list]
    | null | bool | num | str => rfl

theorem isRecord_reencode (t : Tree) : isRecord (val N (reencode t)) = isRecord (val N t) := by
  cases t with
  | arr vs => rw [val_arr, val_reencode_arr]; rfl
  | obj ms => rw [val_obj, val_reencode_obj]; rfl
  | null | bool | num | str => rfl

theorem stringProp_eq_iff (h : t.Good) (hname : Proper name) {k : String} (hk : Proper k) :
    stringProp name (val N (reencode t)) = some (Utf16.ofText k) ↔ stringProp name (val N t) = some (Utf16.ofText k) := by
  rw [stringProp_reencode N h hname]
  cases stringProp name (val N t) with
  | none => exact Iff.rfl
  | some s =>
    rw [Option.map_some, Option.some.injEq, Option.some.injEq]
    exact Utf16.toWellFormed_eq_iff hk

/-! ### Strokes -/

theorem pointsOf_reencode : ∀ raw : List Tree, pointsOf (raw.map fun v => val N (reencode v)) = pointsOf (raw.map (val N))
  | x :: y :: p :: raw => by
    simp only [List.map_cons, pointsOf, clamp, finiteOf_reencode, pointsOf_reencode raw]
  | [] | [_] | [_, _] => rfl

theorem inkColor_reencode (h : t.Good) (hname : Proper name) :
    Document.inkColor (stringProp name (val N (reencode t))) = Document.inkColor (stringProp name (val N t)) := by
  have hfind : ∀ c : Document.InkColor, (decide (stringProp name (val N (reencode t)) = some c.name)) =
      decide (stringProp name (val N t) = some c.name) := by
    intro c
    cases c <;> exact decide_eq_decide.mpr (stringProp_eq_iff N h hname (by decide))
  rw [Document.inkColor, Document.inkColor]
  simp only [hfind]

theorem parseStroke_reencode (h : t.Good) : parseStroke (val N (reencode t)) = parseStroke (val N t) := by
  have htool : (if stringProp "tool" (val N (reencode t)) = some Document.Tool.highlighter.name then Document.Tool.highlighter
      else .pen) = if stringProp "tool" (val N t) = some Document.Tool.highlighter.name then .highlighter else .pen :=
    if_congr (@stringProp_eq_iff N t "tool" h (by decide) "highlighter" (by decide)) rfl rfl
  have hcolor := @inkColor_reencode N t "color" h (by decide)
  have hsize := @clamp_reencode N t "size" h (by decide) 1 64 4
  rw [parseStroke, parseStroke, itemId_reencode N h, prop_reencode N, prop_val N h (by decide)]
  cases itemId (val N t) with
  | none => rfl
  | some id =>
    cases get t "points" with
    | none => rfl
    | some v =>
      cases v with
      | arr raw =>
        simp only [Option.map_some, val_arr, val_reencode_arr, ← List.map_take, pointsOf_reencode, hcolor, hsize,
          htool]
      | obj ms => simp [val_obj, val_reencode_obj]
      | null | bool | num | str => rfl

/-! ### Boxes -/

/-- A box whose blocks stay the same exactly where they are well formed. -/
structure Kept (b b' : CanvasBox) : Prop where
  id : b.id = b'.id
  x : b.x = b'.x
  y : b.y = b'.y
  width : b.width = b'.width
  blocks : List.Forall₂ (fun v v' => v.Same v' ↔ v.WellFormed) b.blocks b'.blocks

theorem emptyDocument_wellFormed : ∀ v ∈ Document.emptyDocument, v.WellFormed := by
  have hliteral : ∀ s : String, (Document.literal s).WellFormed := fun s => Utf16.wellFormed_units s.toList
  exact List.forall_mem_singleton.mpr
    ⟨Utf16.wellFormed_units _, hliteral _, Utf16.wellFormed_units _, hliteral _, trivial⟩

theorem emptyDocument_kept :
    List.Forall₂ (fun v v' => v.Same v' ↔ v.WellFormed) Document.emptyDocument Document.emptyDocument := by
  refine .cons (iff_of_true ?_ (emptyDocument_wellFormed _ List.mem_cons_self)) .nil
  exact ⟨_, rfl, fun _ h => h, ⟨_, rfl, rfl⟩, ⟨_, rfl, rfl⟩, trivial⟩

theorem kept_map {vs : List Tree} (h : ∀ v ∈ vs, v.Good) :
    List.Forall₂ (fun v v' => v.Same v' ↔ v.WellFormed) (vs.map (val N)) (vs.map fun v => val N (reencode v)) := by
  rw [List.forall₂_map_left_iff, List.forall₂_map_right_iff, List.forall₂_same]
  exact fun v hv => same_reencode_iff N (h v hv)

theorem filter_val (vs : List Tree) :
    (vs.map (val N)).filter isRecord = (vs.filter fun v => isRecord (val N v)).map (val N) := List.filter_map

theorem filter_reencode (vs : List Tree) : (vs.map fun v => val N (reencode v)).filter isRecord =
    (vs.filter fun v => isRecord (val N v)).map fun v => val N (reencode v) := by
  rw [List.filter_map]
  exact congrArg (List.map _) (List.filter_congr fun v _ => isRecord_reencode N v)

theorem parseBox_reencode (h : t.Good) :
    Option.Rel Kept (parseBox (val N t)) (parseBox (val N (reencode t))) := by
  rw [parseBox, parseBox, itemId_reencode N h]
  cases itemId (val N t) with
  | none => exact .none
  | some id =>
    refine .some ⟨rfl, ?_, ?_, ?_, ?_⟩
    · exact (clamp_reencode N h (by decide) _ _ _).symm
    · exact (clamp_reencode N h (by decide) _ _ _).symm
    · exact (clamp_reencode N h (by decide) _ _ _).symm
    · simp only [elements_val N h (show Proper "blocks" by decide), elements_reencode N, filter_val, filter_reencode,
        List.map_eq_nil_iff]
      split
      · exact emptyDocument_kept
      · exact kept_map N fun v hv => list_good h "blocks" v (List.mem_of_mem_filter hv)

theorem ids_kept {items items' : List CanvasBox} (h : List.Forall₂ Kept items items') :
    items.map CanvasBox.id = items'.map CanvasBox.id := by
  rw [← List.forall₂_eq_eq_eq, List.forall₂_map_left_iff, List.forall₂_map_right_iff]
  exact h.imp fun _ _ h => h.id

theorem addItem_kept {items items' : List CanvasBox} (hi : List.Forall₂ Kept items items') (h : t.Good) :
    List.Forall₂ Kept (addItem CanvasBox.id parseBox items (val N t))
      (addItem CanvasBox.id parseBox items' (val N (reencode t))) := by
  have hids := ids_kept hi
  rw [addItem, addItem]
  have hbox := parseBox_reencode N h
  cases hb : parseBox (val N t) with
  | none =>
    rw [hb] at hbox
    cases hb' : parseBox (val N (reencode t)) with
    | none => exact hi
    | some b' => rw [hb'] at hbox; cases hbox
  | some b =>
    rw [hb] at hbox
    cases hb' : parseBox (val N (reencode t)) with
    | none => rw [hb'] at hbox; cases hbox
    | some b' =>
      rw [hb'] at hbox
      cases hbox with
      | some hbox =>
        have hany : (items.any fun i => i.id = b.id) = items'.any fun i => i.id = b'.id := by
          rw [Bool.eq_iff_iff, Document.any_id, Document.any_id, hids, hbox.id]
        simp only [hany]
        split
        · exact hi
        · exact List.rel_append hi (.cons hbox .nil)

theorem foldl_kept {ts : List Tree} (h : ∀ t ∈ ts, t.Good) : ∀ {items items' : List CanvasBox},
    List.Forall₂ Kept items items' →
    List.Forall₂ Kept ((ts.map (val N)).foldl (addItem CanvasBox.id parseBox) items)
      ((ts.map fun t => val N (reencode t)).foldl (addItem CanvasBox.id parseBox) items') := by
  induction ts with
  | nil => exact fun hi => hi
  | cons t ts ih =>
    intro items items' hi
    obtain ⟨ht, hts⟩ := List.forall_mem_cons.mp h
    exact ih hts (addItem_kept N hi ht)

end Parts

/-! ## What is added -/

theorem chars_plain (s : Text) : Chars (plain s) := by
  intro c hc
  obtain ⟨x, -, hx⟩ := List.mem_map.mp hc
  rcases plainItem_cases x with ⟨hitem, -⟩ | ⟨hitem, -⟩
  · rw [hitem] at hx
    cases hx
    exact x.valid
  · rw [hitem] at hx
    cases hx

section Added

variable {P : List ℕ → Prop} {Q : List Item → Prop}

/-- What is made of plain strings has the properties that they have. -/
theorem all_obj {ms : List (List Item × Tree)} (h : ∀ m ∈ ms, Q m.1 ∧ m.2.All P Q) : (Tree.obj ms).All P Q :=
  (allMembers_iff _ _).mpr h

theorem all_block (hplain : ∀ s : Text, Q (plain s)) (b : Block) : b.tree.All P Q := by
  have hcontent : ∀ s : Text, (contentTree s).All P Q := fun s =>
    ⟨⟨hplain _, trivial, hplain _, hplain s, hplain _, hplain _, trivial⟩, trivial⟩
  cases b with
  | paragraph s => exact ⟨hplain _, hcontent s, hplain _, hplain _, trivial⟩
  | check checked s => exact ⟨hplain _, hcontent s, hplain _, ⟨hplain _, trivial, trivial⟩, hplain _, hplain _, trivial⟩

theorem all_box (hplain : ∀ s : Text, Q (plain s)) (hnum : ∀ n, P (Document.wholeText n)) (id : Bytes) (y : ℕ)
    (blocks : List Block) : (boxTree id y blocks).All P Q := by
  have hblocks : AllValues P Q (blocks.map Block.tree) :=
    (allValues_iff _ _).mpr (List.forall_mem_map.mpr fun b _ => all_block hplain b)
  exact ⟨hplain _, hplain _, hplain _, hnum _, hplain _, hnum _, hplain _, hnum _, hplain _, hblocks, trivial⟩

theorem block_good (b : Block) : b.tree.Good := all_block chars_plain b

theorem box_good (id : Bytes) (y : ℕ) (blocks : List Block) : (boxTree id y blocks).Good :=
  all_box chars_plain Document.wholeText_isNumber id y blocks

theorem block_wellFormed (b : Block) : (val N b.tree).WellFormed := wellFormed_val N (all_block wellFormed_plain b)

end Added

/-! ## Bodies -/

section Bodies

variable {t : Tree}

theorem decodeJSON_good {s : Text} (h : decodeJSON s = some t) : t.Good := by
  obtain ⟨hfind, -⟩ := Option.filter_eq_some_iff.mp h
  obtain ⟨n, -, hn⟩ := List.exists_of_findSome?_eq_some hfind
  split at hn
  · exact parse_good isValidChar_of_mem hn
  · cases hn

theorem get_set_self (ms : List (List Item × Tree)) (k : String) (v : Tree) : get (set ms k v) k = some v := by
  simp [get, set, member, goString_plain, Json.lastValue_append, Json.lastValue_cons]

theorem get_set_ne (ms : List (List Item × Tree)) {k k' : String} (hne : k.toList ≠ k'.toList) (v : Tree) :
    get (set ms k v) k' = get (.obj ms) k' := by
  simp [get, set, member, goString_plain, Json.lastValue_append, Json.lastValue_cons, hne]

theorem set_good {ms : List (List Item × Tree)} (h : (Tree.obj ms).Good) {k : String} {v : Tree} (hv : v.Good) :
    (set ms k v).Good := by
  refine (allMembers_iff _ _).mpr (List.forall_mem_append.mpr ⟨(allMembers_iff _ _).mp h, ?_⟩)
  exact List.forall_mem_singleton.mpr ⟨chars_plain _, hv⟩

theorem format_iff (h : t.Good) {k : String} (hk : Proper k) (hne : k.toList ≠ []) :
    str (get t "format") = k.toList ↔ stringProp "format" (val N t) = some (Utf16.ofText k) := by
  rw [stringProp_val N h (by decide)]
  cases hg : get t "format" with
  | none => exact iff_of_false hne.symm (by simp)
  | some v =>
    cases v with
    | str s =>
      have hchars : Chars s := get_good h hg
      rw [str, goString_eq hchars, Utf16.scalars_eq_iff hk, Option.bind_some, Option.some.injEq]
      rfl
    | null | bool | num | arr | obj => exact iff_of_false hne.symm (by simp)

variable {N} {body : List UInt16} {v : Value}

theorem openPage_canvas (hp : Js.parse N body = some v) (hf : stringProp "format" v = some Document.canvasFormat) :
    (openPage N body).toCanvasPage =
      { boxes := parseItems CanvasBox.id parseBox (prop "boxes" v) Document.maxBoxes
        strokes := parseItems CanvasStroke.id parseStroke (prop "strokes" v) Document.maxStrokes } := by
  have hvalue : canvasValue N body = some v := by
    rw [canvasValue, hp, Option.filter_some, hf, beq_self_eq_true, if_pos rfl]
  rw [openPage, hvalue]

/-- A page of one box. -/
def onePage (blocks : List Value) : CanvasPage :=
  { boxes := [{ id := Document.legacyBox, x := 0, y := 0, width := Document.defaultBoxWidth, blocks := blocks }]
    strokes := [] }

theorem openPage_other (h : canvasValue N body = none) :
    (openPage N body).toCanvasPage = onePage (Document.parseNoteDocument N body) := by
  rw [openPage, h]
  rfl

theorem openPage_note (hp : Js.parse N body = some v) {document : List Value} (hd : noteDocument v = some document) :
    (openPage N body).toCanvasPage = onePage document := by
  have hf : stringProp "format" v = some Document.noteFormat := by
    rw [noteDocument] at hd
    split at hd
    · assumption
    · cases hd
  have hcanvas : canvasValue N body = none := by
    rw [canvasValue, hp, Option.filter_some_neg]
    rw [hf]
    decide
  rw [openPage_other hcanvas, Document.parseNoteDocument, hp, Option.bind_some, hd]

theorem openPage_text (hp : Js.parse N body = none) : (openPage N body).toCanvasPage =
    onePage (if body = [] then Document.emptyDocument
      else [Document.object [("type", Document.literal "paragraph"), ("content", .str body)]]) := by
  have hcanvas : canvasValue N body = none := by
    rw [canvasValue, hp]
    rfl
  rw [openPage_other hcanvas, Document.parseNoteDocument, Document.legacyTiptapDocument, hp]
  rfl

end Bodies

end KyNotes.Bridge.Markdown
