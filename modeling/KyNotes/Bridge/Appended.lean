import KyNotes.Bridge.Reopened

/-!
# Pages after an append

What the browser shows of a page after an append is compared with what it showed before (`Shows`). It is that and the new
blocks where the browser can read the body and no string that it shows has a lone surrogate, and only there: Go replaces a
lone surrogate, and `d.More` is false before a bracket that closes nothing.
-/

namespace KyNotes.Bridge.Markdown

open Cleanup.Stored JsonText
open Js (Value Numbers)
open Document (CanvasBox CanvasStroke CanvasPage openPage prop stringProp itemId isItemId elements isRecord parseBox
  parseStroke parseItems addItem canvasValue noteDocument)

variable (N : Numbers)

/-! ## What an append shows -/

/-- The same box but for the order of members in its blocks. -/
structure BoxSame (b b' : CanvasBox) : Prop where
  id : b.id = b'.id
  x : b.x = b'.x
  y : b.y = b'.y
  width : b.width = b'.width
  blocks : List.Forall₂ Value.Same b.blocks b'.blocks

structure PageSame (p p' : CanvasPage) : Prop where
  boxes : List.Forall₂ BoxSame p.boxes p'.boxes
  strokes : p.strokes = p'.strokes

/-- The values of new blocks. -/
def newBlocks (blocks : List Block) : List Value := blocks.map fun b => val N b.tree

/-- What `appendBlocks` is for: `p'` is the page of the body with the blocks after those of a block document, with one more
box of them at the end of a canvas, and instead of the empty body's. -/
def Shows (id : Bytes) (blocks : List Block) (body : Text) (p' : CanvasPage) : Prop :=
  let p := (openPage N (units body)).toCanvasPage
  if body = [] then PageSame (onePage (newBlocks N blocks)) p'
  else if (canvasValue N (units body)).isSome then
    ∃ box : CanvasBox, box.id = units (boxId id) ∧ box.blocks = newBlocks N blocks ∧
      PageSame { p with boxes := p.boxes ++ [box] } p'
  else if ((Js.parse N (units body)).bind noteDocument).isSome then
    PageSame { p with boxes := p.boxes.map fun box => { box with blocks := box.blocks ++ newBlocks N blocks } } p'
  else PageSame p p'

/-- The browser reads the body as JSON, or it is empty. -/
def Readable (body : Text) : Prop := body = [] ∨ (Js.parse N (units body)).isSome

/-- No block that is shown has a lone surrogate in a string or a key. -/
def WellFormedPage (p : CanvasPage) : Prop := ∀ box ∈ p.boxes, ∀ v ∈ box.blocks, v.WellFormed

theorem forall₂_iff {α β : Type} {R : α → β → Prop} {P : α → Prop} {as : List α} {bs : List β}
    (h : List.Forall₂ (fun a b => R a b ↔ P a) as bs) : List.Forall₂ R as bs ↔ ∀ a ∈ as, P a := by
  induction h with
  | nil => exact ⟨fun _ => nofun, fun _ => .nil⟩
  | cons hab _ ih => rw [List.forall₂_cons, List.forall_mem_cons, hab, ih]

theorem Kept.same_iff {b b' : CanvasBox} (h : Kept b b') : BoxSame b b' ↔ ∀ v ∈ b.blocks, v.WellFormed := by
  rw [← forall₂_iff h.blocks]
  exact ⟨fun hs => hs.blocks, fun hs => ⟨h.id, h.x, h.y, h.width, hs⟩⟩

/-! ### The new box -/

theorem hexString_unit (id : Bytes) : ∀ u ∈ units (Setup.hexString id).toList, Document.isIdUnit u = true := by
  intro u hu
  have hdigit : ∀ d < 16, (Utf16.units (Char.ofNat (JsonText.hexDigit d))).all Document.isIdUnit = true := by decide
  obtain ⟨c, hc, hu⟩ := List.mem_flatMap.mp hu
  rw [Setup.hexString, String.toList_ofList] at hc
  obtain ⟨b, -, hc⟩ := List.mem_flatMap.mp hc
  have hb := b.toNat_lt
  simp only [List.mem_cons, List.not_mem_nil, or_false] at hc
  rcases hc with rfl | rfl
  · exact List.all_eq_true.mp (hdigit _ (by omega)) u hu
  · exact List.all_eq_true.mp (hdigit _ (by omega)) u hu

theorem hexString_length (id : Bytes) : (units (Setup.hexString id).toList).length = 2 * id.length := by
  have hdigit : ∀ d < 16, (Utf16.units (Char.ofNat (JsonText.hexDigit d))).length = 1 := by decide
  rw [Setup.hexString, String.toList_ofList]
  induction id with
  | nil => rfl
  | cons b id ih =>
    have hb := b.toNat_lt
    have hhigh := hdigit (b.toNat / 16) (by omega)
    have hlow := hdigit (b.toNat % 16) (by omega)
    simp only [units, List.flatMap_cons, List.flatMap_append, List.flatMap_nil, List.append_nil, List.length_append,
      List.length_cons, hhigh, hlow] at ih ⊢
    omega

theorem isItemId_boxId {id : Bytes} (h : id.length = 8) : isItemId (units (boxId id)) = true := by
  have hunits : units (boxId id) = Utf16.ofText "mcp-" ++ units (Setup.hexString id).toList := List.flatMap_append
  have hlength := hexString_length id
  have hall : (units (boxId id)).all Document.isIdUnit = true := by
    rw [hunits, List.all_append, List.all_eq_true.mpr (hexString_unit id), Bool.and_true]
    decide
  have hprefix : (Utf16.ofText "mcp-").length = 4 := by decide
  have hlen : (units (boxId id)).length = 20 := by
    rw [hunits, List.length_append, hlength, h, hprefix]
  rw [isItemId, hall, hlen]
  decide

theorem boxId_ne_legacy (id : Bytes) : units (boxId id) ≠ Document.legacyBox := by
  have hunits : units (boxId id) = Utf16.ofText "mcp-" ++ units (Setup.hexString id).toList := List.flatMap_append
  have hhead : (units (boxId id)).head? = some 109 := by
    rw [hunits]
    rfl
  intro h
  rw [h] at hhead
  exact absurd hhead (by decide)

/-- What the browser makes of the new box. -/
theorem parseBox_boxTree {id : Bytes} (h : id.length = 8) (y : ℕ) {blocks : List Block} (hne : blocks ≠ []) :
    ∃ box, parseBox (val N (boxTree id y blocks)) = some box ∧ box.id = units (boxId id) ∧
      box.blocks = newBlocks N blocks := by
  have hgood := box_good id y blocks
  have hgetId : get (boxTree id y blocks) "id" = some (textTree (boxId id)) := by
    simp [get, boxTree, member, goString_plain, Json.lastValue]
  have hgetBlocks : get (boxTree id y blocks) "blocks" = some (.arr (blocks.map Block.tree)) := by
    simp [get, boxTree, member, goString_plain, Json.lastValue]
  have hid : itemId (val N (boxTree id y blocks)) = some (units (boxId id)) := by
    rw [itemId, stringProp_val N hgood (by decide), hgetId]
    have hkey : key (plain (boxId id)) = units (boxId id) := key_plain _
    show (some (key (plain (boxId id)))).filter isItemId = _
    rw [hkey, Option.filter_some_pos (isItemId_boxId h)]
  have hrecords : (newBlocks N blocks).filter isRecord = newBlocks N blocks := by
    refine List.filter_eq_self.mpr (List.forall_mem_map.mpr fun b _ => ?_)
    cases b with
    | paragraph s => rw [Block.tree, val_obj]; rfl
    | check checked s => rw [Block.tree, val_obj]; rfl
  have hblocks : (elements (prop "blocks" (val N (boxTree id y blocks)))).filter isRecord = newBlocks N blocks := by
    rw [elements_val N hgood (by decide), hgetBlocks, list, List.map_map]
    exact hrecords
  have hnew : newBlocks N blocks ≠ [] := fun h => hne (List.map_eq_nil_iff.mp h)
  rw [parseBox, hid]
  refine ⟨_, rfl, rfl, ?_⟩
  simp only [hblocks, if_neg hnew]

/-! ### The page after an append -/

variable {N} {F : Floats} {id : Bytes} {blocks : List Block} {body b' : Text} {ms : List (List Item × Tree)}

/-- What a successful append did. -/
inductive Result (F : Floats) (id : Bytes) (blocks : List Block) (body : Text) : Text → Prop
  | empty (hbody : body = []) : Result F id blocks body (newPageBody blocks)
  | note {ms existing} (hbody : body ≠ []) (hdecode : decodeJSON body = some (.obj ms))
      (hformat : str (get (.obj ms) "format") = blocknoteFormat.toList)
      (hdocument : get (.obj ms) "document" = some (.arr existing)) :
      Result F id blocks body (marshal (reencode (set ms "document" (.arr (existing ++ blocks.map Block.tree)))))
  | canvas {ms y} (hbody : body ≠ []) (hdecode : decodeJSON body = some (.obj ms))
      (hformat : str (get (.obj ms) "format") = canvasFormat.toList)
      (hroom : (list (get (.obj ms) "boxes")).length < maxBoxes) :
      Result F id blocks body
        (marshal (reencode (set ms "boxes" (.arr (list (get (.obj ms) "boxes") ++ [boxTree id y blocks])))))

theorem appendBlocks_ok (h : appendBlocks F id body blocks = .ok b') : Result F id blocks body b' := by
  unfold appendBlocks at h
  split at h
  · next hbody => cases h; exact .empty hbody
  · next hbody =>
    split at h
    · next ms hdecode =>
      simp only at h
      split at h
      · next hformat =>
        split at h
        · next existing hdocument => cases h; exact .note hbody hdecode hformat hdocument
        · cases h
      · split at h
        · next hformat =>
          split at h
          · cases h
          · next hroom => cases h; exact .canvas hbody hdecode hformat (Nat.lt_of_not_le hroom)
        · cases h
    · cases h

theorem noteDocument_val {t : Tree} (h : t.Good) (hformat : str (get t "format") = blocknoteFormat.toList) {vs : List Tree}
    (hdocument : get t "document" = some (.arr vs)) : noteDocument (val N t) = some (vs.map (val N)) := by
  have hf : stringProp "format" (val N t) = some Document.noteFormat := (format_iff N h (by decide) (by decide)).mp hformat
  rw [noteDocument, if_pos hf, prop_val N h (by decide), hdocument, Option.map_some, val_arr]

theorem noteDocument_reencode {t : Tree} (h : t.Good) (hformat : str (get t "format") = blocknoteFormat.toList)
    {vs : List Tree} (hdocument : get t "document" = some (.arr vs)) :
    noteDocument (val N (reencode t)) = some (vs.map fun v => val N (reencode v)) := by
  have hf : stringProp "format" (val N t) = some Document.noteFormat := (format_iff N h (by decide) (by decide)).mp hformat
  have hf' : stringProp "format" (val N (reencode t)) = some Document.noteFormat :=
    (stringProp_eq_iff N h (by decide) (by decide)).mpr hf
  rw [noteDocument, if_pos hf', prop_reencode N, hdocument, Option.map_some, val_reencode_arr]

/-- A block document after an append. -/
theorem page_note (h : (Tree.obj ms).Good) (hformat : str (get (.obj ms) "format") = blocknoteFormat.toList)
    {vs : List Tree} (hvs : ∀ v ∈ vs, v.Good) :
    (openPage N (units (marshal (reencode (set ms "document" (.arr vs)))))).toCanvasPage =
      onePage (vs.map fun v => val N (reencode v)) := by
  have hgood : (set ms "document" (.arr vs)).Good := set_good h ((allValues_iff _ _).mpr hvs)
  refine openPage_note (parse_marshal N (written_reencode hgood)) (noteDocument_reencode hgood ?_ (get_set_self ms _ _))
  rw [get_set_ne ms (by decide)]
  exact hformat

theorem parseItems_strokes {t : Tree} (h : t.Good) :
    parseItems CanvasStroke.id parseStroke (prop "strokes" (val N (reencode t))) Document.maxStrokes =
      parseItems CanvasStroke.id parseStroke (prop "strokes" (val N t)) Document.maxStrokes := by
  rw [parseItems, parseItems, elements_reencode N, elements_val N h (by decide), ← List.map_take, ← List.map_take,
    List.foldl_map, List.foldl_map]
  refine List.foldl_ext _ _ _ fun items t ht => ?_
  rw [addItem, addItem, parseStroke_reencode N (list_good h "strokes" t (List.mem_of_mem_take ht))]

/-- A canvas after an append. -/
theorem page_canvas (h : (Tree.obj ms).Good) (hformat : str (get (.obj ms) "format") = canvasFormat.toList)
    {vs : List Tree} (hvs : ∀ v ∈ vs, v.Good) (hroom : vs.length ≤ maxBoxes) :
    (openPage N (units (marshal (reencode (set ms "boxes" (.arr vs)))))).toCanvasPage =
      { boxes := (vs.map fun v => val N (reencode v)).foldl (addItem CanvasBox.id parseBox) []
        strokes := parseItems CanvasStroke.id parseStroke (prop "strokes" (val N (.obj ms))) Document.maxStrokes } := by
  have hgood : (set ms "boxes" (.arr vs)).Good := set_good h ((allValues_iff _ _).mpr hvs)
  have hf : stringProp "format" (val N (set ms "boxes" (.arr vs))) = some Document.canvasFormat := by
    refine (format_iff N hgood (by decide) (by decide)).mp ?_
    rw [get_set_ne ms (by decide)]
    exact hformat
  have hf' := (stringProp_eq_iff N hgood (by decide) (k := "kynotes.canvas.v1") (by decide)).mpr hf
  have hboxes : elements (prop "boxes" (val N (reencode (set ms "boxes" (.arr vs))))) =
      vs.map fun v => val N (reencode v) := by
    rw [elements_reencode N, get_set_self]
    rfl
  have hstrokes : prop "strokes" (val N (set ms "boxes" (.arr vs))) = prop "strokes" (val N (.obj ms)) := by
    rw [prop_val N hgood (by decide), prop_val N h (by decide), get_set_ne ms (by decide)]
  have hlength : (vs.map fun v => val N (reencode v)).length ≤ Document.maxBoxes := by
    rw [List.length_map]
    exact hroom
  rw [openPage_canvas (parse_marshal N (written_reencode hgood)) hf', parseItems_strokes hgood, hstrokes, parseItems, hboxes,
    List.take_of_length_le hlength]

/-! ### What it shows -/

theorem newBlocks_same (blocks : List Block) : List.Forall₂ Value.Same (newBlocks N blocks) (newBlocks N blocks) := by
  rw [newBlocks, List.forall₂_map_left_iff, List.forall₂_map_right_iff, List.forall₂_same]
  exact fun b _ => Js.same_self N (Js.ofTree_wf _)

theorem newBlocks_wellFormed (blocks : List Block) : ∀ v ∈ newBlocks N blocks, v.WellFormed :=
  List.forall_mem_map.mpr fun b _ => block_wellFormed N b

theorem onePage_same_iff {vs vs' : List Value} (h : List.Forall₂ (fun v v' => v.Same v' ↔ v.WellFormed) vs vs') :
    PageSame (onePage vs) (onePage vs') ↔ ∀ v ∈ vs, v.WellFormed := by
  rw [← forall₂_iff h]
  constructor
  · intro hs
    obtain ⟨hbox, -⟩ := List.forall₂_cons.mp hs.boxes
    exact hbox.blocks
  · exact fun hs => ⟨.cons ⟨rfl, rfl, rfl, rfl, hs⟩ .nil, rfl⟩

theorem wellFormedPage_onePage {vs : List Value} : WellFormedPage (onePage vs) ↔ ∀ v ∈ vs, v.WellFormed :=
  List.forall_mem_singleton

theorem shows_empty (hne : blocks ≠ []) : Shows N id blocks [] (openPage N (units (newPageBody blocks))).toCanvasPage := by
  have hgood : (documentTree blocks).Good := by
    refine all_obj (List.forall_mem_cons.mpr ⟨⟨chars_plain _, ?_⟩, ?_⟩)
    swap
    · exact List.forall_mem_singleton.mpr ⟨chars_plain _, chars_plain _⟩
    rw [if_neg hne]
    exact (allValues_iff _ _).mpr (List.forall_mem_map.mpr fun b _ => block_good b)
  have hformat : str (get (documentTree blocks) "format") = blocknoteFormat.toList := by
    simp [get, documentTree, member, goString_plain, Json.lastValue, str, textTree]
  have hdocument : get (documentTree blocks) "document" = some (.arr (blocks.map Block.tree)) := by
    simp [get, documentTree, member, goString_plain, Json.lastValue, hne]
  have hpage := openPage_note (parse_marshal N (written_document blocks)) (noteDocument_val hgood hformat hdocument)
  have hnew : (blocks.map Block.tree).map (val N) = newBlocks N blocks := List.map_map
  rw [Shows, if_pos rfl, newPageBody, hpage, hnew]
  exact ⟨.cons ⟨rfl, rfl, rfl, rfl, newBlocks_same blocks⟩ .nil, rfl⟩

/-- A block is no paragraph of a text. -/
theorem not_same_block (b : Block) {s : List UInt16} : ¬(Document.object [("type", Document.literal "paragraph"),
    ("content", .str s)]).Same (val N (reencode b.tree)) := by
  rintro ⟨ns, hns, -, -, ⟨x, hx, rfl⟩, -⟩
  have hcontent : ∃ vs, get b.tree "content" = some (.arr vs) := by
    cases b <;> simp [get, Block.tree, member, goString_plain, Json.lastValue, contentTree]
  obtain ⟨vs, hvs⟩ := hcontent
  have hprop := @prop_reencode N b.tree "content"
  rw [hvs, Option.map_some, val_reencode_arr, hns] at hprop
  rw [show prop "content" (.obj ns) = ns.lookup (Utf16.ofText "content") from rfl, hx] at hprop
  cases hprop

/-- The box that is encoded, and what the browser makes of it. -/
theorem parseBox_new (hid : id.length = 8) (hne : blocks ≠ []) (y : ℕ) :
    ∃ box box', box.id = units (boxId id) ∧ box.blocks = newBlocks N blocks ∧ Kept box box' ∧
      parseBox (val N (reencode (boxTree id y blocks))) = some box' := by
  obtain ⟨box, hbox, hbid, hblocks⟩ := parseBox_boxTree N hid y hne
  have hrel := parseBox_reencode N (box_good id y blocks)
  rw [hbox] at hrel
  cases hrel' : parseBox (val N (reencode (boxTree id y blocks))) with
  | none => rw [hrel'] at hrel; cases hrel
  | some box' =>
    rw [hrel'] at hrel
    cases hrel with
    | some hkept => exact ⟨box, box', hbid, hblocks, hkept, rfl⟩

/-- The new box is there, or one with its ID. -/
theorem boxTree_shown (hid : id.length = 8) (hne : blocks ≠ []) (y : ℕ) (items : List CanvasBox) :
    ∃ box ∈ addItem CanvasBox.id parseBox items (val N (reencode (boxTree id y blocks))), box.id = units (boxId id) := by
  obtain ⟨box, box', hbid, -, hkept, hparse⟩ := parseBox_new (N := N) hid hne y
  rw [addItem, hparse]
  simp only
  split
  · next hany =>
    obtain ⟨i, hi, hiid⟩ := List.any_eq_true.mp hany
    exact ⟨i, hi, (of_decide_eq_true hiid).trans (hkept.id.symm.trans hbid)⟩
  · exact ⟨box', List.mem_append_right _ List.mem_cons_self, hkept.id.symm.trans hbid⟩

/-- The browser shows a text, and after the append no text. -/
theorem not_shows_unread (hread : Js.parse N (units body) = none) (hbody : body ≠ []) (hne : blocks ≠ [])
    (hid : id.length = 8) (h : Result F id blocks body b') :
    ¬Shows N id blocks body (openPage N (units b')).toCanvasPage := by
  have hcanvas : canvasValue N (units body) = none := by
    rw [canvasValue, hread]
    rfl
  have hunits : units body ≠ [] := fun h => hbody (units_injective h)
  rw [Shows, if_neg hbody, hcanvas, Option.isSome_none, if_neg Bool.false_ne_true, hread, Option.bind_none,
    Option.isSome_none, if_neg Bool.false_ne_true, openPage_text hread, if_neg hunits]
  intro hs
  cases h with
  | empty hempty => exact hbody hempty
  | note _ hdecode hformat hdocument =>
    have hgood := decodeJSON_good hdecode
    have hexisting := (allValues_iff _ _).mp (get_good hgood hdocument)
    have hnew : ∀ v ∈ blocks.map Block.tree, v.Good := List.forall_mem_map.mpr fun b _ => block_good b
    rw [page_note hgood hformat (List.forall_mem_append.mpr ⟨hexisting, hnew⟩)] at hs
    obtain ⟨hbox, -⟩ := List.forall₂_cons.mp hs.boxes
    obtain ⟨w, ws, hw, hws, hlist⟩ := List.forall₂_cons_left_iff.mp hbox.blocks
    rw [List.forall₂_nil_left_iff] at hws
    obtain ⟨b, hb⟩ := List.exists_mem_of_ne_nil blocks hne
    have hmem : val N (reencode b.tree) ∈ w :: ws := by
      rw [← hlist]
      exact List.mem_map_of_mem (List.mem_append_right _ (List.mem_map_of_mem hb))
    rw [hws, List.mem_singleton] at hmem
    rw [← hmem] at hw
    exact not_same_block b hw
  | @canvas ms y _ hdecode hformat hroom =>
    have hgood := decodeJSON_good hdecode
    have hvs := List.forall_mem_append.mpr
      ⟨list_good hgood "boxes", List.forall_mem_singleton.mpr (box_good id y blocks)⟩
    rw [page_canvas hgood hformat hvs (by rw [List.length_append]; exact hroom), List.map_append, List.foldl_append] at hs
    obtain ⟨w, ws, hw, hws, hlist⟩ := List.forall₂_cons_left_iff.mp hs.boxes
    rw [List.forall₂_nil_left_iff] at hws
    obtain ⟨box, hmem, hbid⟩ := boxTree_shown (N := N) hid hne y
      (((list (get (.obj ms) "boxes")).map fun v => val N (reencode v)).foldl (addItem CanvasBox.id parseBox) [])
    have hbox : box ∈ w :: ws := hlist ▸ hmem
    rw [hws, List.mem_singleton] at hbox
    rw [← hbox] at hw
    exact boxId_ne_legacy id (hbid.symm.trans hw.id.symm)

/-- What the browser reads of a body that Go reads. -/
theorem decoded_of_parse {t : Tree} (hdecode : decodeJSON body = some t) (hread : (Js.parse N (units body)).isSome) :
    Js.parse N (units body) = some (val N t) := by
  rw [parse_units_text] at hread ⊢
  cases hparse : parse (body.map Char.toNat) with
  | none => rw [hparse] at hread; cases hread
  | some t' =>
    rw [decodeJSON_parse hparse] at hdecode
    obtain ⟨ht, -⟩ := Option.filter_eq_some_iff.mp hdecode
    rw [Option.some.inj ht]
    rfl

theorem shows_note_iff (hbody : body ≠ []) (hread : (Js.parse N (units body)).isSome)
    (hdecode : decodeJSON body = some (.obj ms)) (hformat : str (get (.obj ms) "format") = blocknoteFormat.toList)
    {existing : List Tree} (hdocument : get (.obj ms) "document" = some (.arr existing)) :
    Shows N id blocks body (openPage N (units (marshal (reencode (set ms "document"
        (.arr (existing ++ blocks.map Block.tree))))))).toCanvasPage ↔
      WellFormedPage (openPage N (units body)).toCanvasPage := by
  have hgood := decodeJSON_good hdecode
  have hparse := decoded_of_parse hdecode hread
  have hnote := noteDocument_val (N := N) hgood hformat hdocument
  have hexisting : ∀ v ∈ existing, v.Good := (allValues_iff _ _).mp (get_good hgood hdocument)
  have hvs : ∀ v ∈ existing ++ blocks.map Block.tree, v.Good :=
    List.forall_mem_append.mpr ⟨hexisting, List.forall_mem_map.mpr fun b _ => block_good b⟩
  have hf : stringProp "format" (val N (.obj ms)) = some Document.noteFormat :=
    (format_iff N hgood (by decide) (by decide)).mp hformat
  have hcanvas : canvasValue N (units body) = none := by
    rw [canvasValue, hparse, Option.filter_some_neg]
    rw [hf]
    decide
  have hafter : ({ onePage (existing.map (val N)) with
      boxes := (onePage (existing.map (val N))).boxes.map fun box =>
        { box with blocks := box.blocks ++ newBlocks N blocks } } : CanvasPage) =
      onePage ((existing ++ blocks.map Block.tree).map (val N)) := by
    rw [List.map_append, List.map_map]
    rfl
  rw [Shows, if_neg hbody, hcanvas, Option.isSome_none, if_neg Bool.false_ne_true, hparse, Option.bind_some, hnote,
    Option.isSome_some, if_pos rfl, openPage_note hparse hnote, page_note hgood hformat hvs, hafter,
    onePage_same_iff (kept_map N hvs), wellFormedPage_onePage, List.map_append, List.forall_mem_append]
  refine and_iff_left ?_
  rw [List.map_map]
  exact newBlocks_wellFormed blocks

theorem boxes_same_iff {bs bs' : List CanvasBox} (h : List.Forall₂ Kept bs bs') :
    List.Forall₂ BoxSame bs bs' ↔ ∀ box ∈ bs, ∀ v ∈ box.blocks, v.WellFormed :=
  forall₂_iff (h.imp fun _ _ hk => hk.same_iff)

theorem shows_canvas_iff (hbody : body ≠ []) (hread : (Js.parse N (units body)).isSome)
    (hdecode : decodeJSON body = some (.obj ms)) (hformat : str (get (.obj ms) "format") = canvasFormat.toList)
    (hroom : (list (get (.obj ms) "boxes")).length < maxBoxes) (hid : id.length = 8) (hne : blocks ≠ []) {y : ℕ}
    (hfresh : ∀ box ∈ (openPage N (units body)).boxes, box.id ≠ units (boxId id)) :
    Shows N id blocks body (openPage N (units (marshal (reencode (set ms "boxes"
        (.arr (list (get (.obj ms) "boxes") ++ [boxTree id y blocks]))))))).toCanvasPage ↔
      WellFormedPage (openPage N (units body)).toCanvasPage := by
  have hgood := decodeJSON_good hdecode
  have hparse := decoded_of_parse hdecode hread
  have hold := list_good hgood "boxes"
  have hvs := List.forall_mem_append.mpr ⟨hold, List.forall_mem_singleton.mpr (box_good id y blocks)⟩
  have hf : stringProp "format" (val N (.obj ms)) = some Document.canvasFormat :=
    (format_iff N hgood (by decide) (by decide)).mp hformat
  have hcanvas : (canvasValue N (units body)).isSome := by
    rw [canvasValue, hparse, Option.filter_some_pos]
    · rfl
    · rw [hf]
      exact beq_self_eq_true _
  have hbefore : (openPage N (units body)).boxes =
      ((list (get (.obj ms) "boxes")).map (val N)).foldl (addItem CanvasBox.id parseBox) [] := by
    have hpage := congrArg CanvasPage.boxes (openPage_canvas hparse hf)
    rw [parseItems, elements_val N hgood (by decide), List.take_of_length_le] at hpage
    · exact hpage
    · rw [List.length_map]
      exact Nat.le_of_lt hroom
  have hkept := foldl_kept N hold List.Forall₂.nil
  rw [← hbefore] at hkept
  -- the new box comes last, as its ID is fresh
  obtain ⟨box, box', hbid, hblocks, hbox, hnew⟩ := parseBox_new (N := N) hid hne y
  have hids : (openPage N (units body)).boxes.map CanvasBox.id =
      (((list (get (.obj ms) "boxes")).map fun v => val N (reencode v)).foldl (addItem CanvasBox.id parseBox) []).map
        CanvasBox.id := ids_kept hkept
  have hafter : addItem CanvasBox.id parseBox
      (((list (get (.obj ms) "boxes")).map fun v => val N (reencode v)).foldl (addItem CanvasBox.id parseBox) [])
      (val N (reencode (boxTree id y blocks))) =
      ((list (get (.obj ms) "boxes")).map fun v => val N (reencode v)).foldl (addItem CanvasBox.id parseBox) [] ++
        [box'] := by
    rw [addItem, hnew]
    refine if_neg fun hany => ?_
    rw [Document.any_id, ← hids, ← hbox.id, hbid] at hany
    obtain ⟨old, hmem, hold⟩ := List.mem_map.mp hany
    exact hfresh old hmem hold
  rw [Shows, if_neg hbody, if_pos hcanvas, page_canvas hgood hformat hvs (by rw [List.length_append]; exact hroom),
    List.map_append, List.foldl_append, List.map_singleton, List.foldl_cons, List.foldl_nil, hafter, WellFormedPage,
    ← boxes_same_iff hkept]
  constructor
  · rintro ⟨b, -, -, hs⟩
    have htake := List.forall₂_take_append _ _ _ hs.boxes
    rwa [← hkept.length_eq, List.take_left'] at htake
    rfl
  · intro hs
    have hlast : BoxSame box box' := hbox.same_iff.mpr (hblocks ▸ newBlocks_wellFormed blocks)
    refine ⟨box, hbid, hblocks, List.rel_append hs (.cons hlast .nil), ?_⟩
    have hstrokes := congrArg CanvasPage.strokes (openPage_canvas hparse hf)
    exact hstrokes

/-- **Appending through the bridge.** What the browser shows after an append is what it showed, with the blocks added, exactly
where it read the body as JSON or the body is empty, and no block that it showed has a lone surrogate in a string or a
key. -/
theorem appendBlocks_shows_iff (N : Numbers) (F : Floats) (id : Bytes) (body b' : Text) (blocks : List Block)
    (hid : id.length = 8) (hne : blocks ≠ []) (h : appendBlocks F id body blocks = .ok b')
    (hfresh : ∀ box ∈ (openPage N (units body)).boxes, box.id ≠ units (boxId id)) :
    Shows N id blocks body (openPage N (units b')).toCanvasPage ↔
      Readable N body ∧ WellFormedPage (openPage N (units body)).toCanvasPage := by
  have hresult := appendBlocks_ok h
  by_cases hbody : body = []
  · subst hbody
    cases hresult with
    | empty =>
      refine iff_of_true (shows_empty hne) ⟨.inl rfl, ?_⟩
      have hpage : (openPage N (units [])).toCanvasPage = onePage Document.emptyDocument := openPage_text rfl
      rw [hpage, wellFormedPage_onePage]
      exact emptyDocument_wellFormed
    | note hbody => exact absurd rfl hbody
    | canvas hbody => exact absurd rfl hbody
  · by_cases hread : (Js.parse N (units body)).isSome
    · rw [Readable, or_iff_right hbody, and_iff_right hread]
      cases hresult with
      | empty hempty => exact absurd hempty hbody
      | note _ hdecode hformat hdocument => exact shows_note_iff hbody hread hdecode hformat hdocument
      | canvas _ hdecode hformat hroom => exact shows_canvas_iff hbody hread hdecode hformat hroom hid hne hfresh
    · have hnone : Js.parse N (units body) = none := by
        rw [Option.isSome_iff_ne_none] at hread
        exact Decidable.not_not.mp hread
      refine iff_of_false (not_shows_unread hnone hbody hne hid hresult) ?_
      rintro ⟨hempty | hsome, -⟩
      · exact hbody hempty
      · exact hread hsome

/-! ### A body of each kind -/

/-- Floats that read as whole numbers. -/
def wholeFloats : Floats := ⟨Document.wholeNumbers.read, .finite⟩

/-- A document without blocks. -/
@[irreducible]
def emptyBody : Text := "\x7b\"format\":\"kynotes.blocknote.v1\",\"document\":[]\x7d".toList

/-- The same, with one bracket more. -/
def trailingBody : Text := emptyBody ++ [']']

theorem exists_of_toBool {r : Except AppendError Text} (h : r.toBool = true) : ∃ b', r = .ok b' := by
  cases r with
  | error => cases h
  | ok b' => exact ⟨b', rfl⟩

theorem appendBlocks_shows_emptyBody : ∃ b', appendBlocks wholeFloats (List.replicate 8 0) emptyBody
    (markdownBlocks "a".toList) = .ok b' ∧
    Shows Document.wholeNumbers (List.replicate 8 0) (markdownBlocks "a".toList) emptyBody
      (openPage Document.wholeNumbers (units b')).toCanvasPage := by
  have hbody : units emptyBody = Document.emptyNote := by decide +kernel
  have hparse : Js.parse Document.wholeNumbers (units emptyBody) = some Document.emptyNoteValue := by
    rw [hbody, Document.parse_emptyNote]
  have hnote : noteDocument Document.emptyNoteValue = some [] := by
    simp [Document.emptyNoteValue, noteDocument, stringProp, Document.prop_object, List.lookup_cons]
  have hpage := openPage_note hparse hnote
  have hfresh : ∀ box ∈ (openPage Document.wholeNumbers (units emptyBody)).boxes,
      box.id ≠ units (boxId (List.replicate 8 0)) := by
    rw [congrArg CanvasPage.boxes hpage]
    exact List.forall_mem_singleton.mpr (boxId_ne_legacy _).symm
  have hreadable : Readable Document.wholeNumbers emptyBody := .inr (by rw [hparse]; rfl)
  have hwellFormed : WellFormedPage (openPage Document.wholeNumbers (units emptyBody)).toCanvasPage := by
    rw [hpage, wellFormedPage_onePage]
    exact List.forall_mem_nil _
  have hne : markdownBlocks "a".toList ≠ [] := by decide +kernel
  obtain ⟨b', h⟩ := exists_of_toBool (show (appendBlocks wholeFloats (List.replicate 8 0) emptyBody
    (markdownBlocks "a".toList)).toBool = true by decide +kernel)
  have hshows := appendBlocks_shows_iff Document.wholeNumbers wholeFloats _ _ _ _ List.length_replicate hne h hfresh
  exact ⟨b', h, hshows.mpr ⟨hreadable, hwellFormed⟩⟩

theorem appendBlocks_trailingBody : ∃ b', appendBlocks wholeFloats (List.replicate 8 0) trailingBody
    (markdownBlocks "a".toList) = .ok b' ∧
    (∀ box ∈ (openPage Document.wholeNumbers (units trailingBody)).boxes, box.id ≠ units (boxId (List.replicate 8 0))) ∧
    ¬Shows Document.wholeNumbers (List.replicate 8 0) (markdownBlocks "a".toList) trailingBody
      (openPage Document.wholeNumbers (units b')).toCanvasPage := by
  have hunread : parse (trailingBody.map Char.toNat) = none := by decide +kernel
  have hparse : Js.parse Document.wholeNumbers (units trailingBody) = none := by
    rw [parse_units_text, hunread]
    rfl
  have hboxes := congrArg CanvasPage.boxes (openPage_text hparse)
  obtain ⟨b', h⟩ := exists_of_toBool (show (appendBlocks wholeFloats (List.replicate 8 0) trailingBody
    (markdownBlocks "a".toList)).toBool = true by decide +kernel)
  refine ⟨b', h, ?_, ?_⟩
  · rw [hboxes]
    exact List.forall_mem_singleton.mpr (boxId_ne_legacy _).symm
  · exact not_shows_unread hparse (by decide +kernel) (by decide +kernel) List.length_replicate (appendBlocks_ok h)

end KyNotes.Bridge.Markdown
