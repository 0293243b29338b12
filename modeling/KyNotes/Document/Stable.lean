import KyNotes.Document.Levels
import KyNotes.Document.Page
import Mathlib.Algebra.Order.Ring.Unbundled.Rat
import Mathlib.Data.List.TakeWhile
import Mathlib.Data.Nat.Digits.Lemmas
import Mathlib.Data.Rat.Cast.Defs

/-!
# Pages that open as they were saved (`web/src/document.ts`)

Every opened page is within the caps and bounds (`openPage_sound`), and a page within them whose blocks are records is read back
from what is saved of it, with `null` for the numbers in its blocks that are not finite (`reopened`). The document of a body of
the note format is taken as it is, where `parseBox` puts a paragraph for no blocks and drops what is no record.
-/

namespace KyNotes.Document

open Js
open Web (JsString)

/-! ## What a page may be -/

/-- Points of three numbers within their bounds. -/
def Points : List ℚ → Prop
  | [] => True
  | x :: y :: p :: points => (0 ≤ x ∧ x ≤ maxCoord) ∧ (0 ≤ y ∧ y ≤ maxCoord) ∧ (0 ≤ p ∧ p ≤ 1) ∧ Points points
  | _ => False

structure CanvasBox.Sound (b : CanvasBox) : Prop where
  id : isItemId b.id = true
  x : 0 ≤ b.x ∧ b.x ≤ maxCoord
  y : 0 ≤ b.y ∧ b.y ≤ maxCoord
  width : boxMinWidth ≤ b.width ∧ b.width ≤ boxMaxWidth

structure CanvasStroke.Sound (s : CanvasStroke) : Prop where
  id : isItemId s.id = true
  size : 1 ≤ s.size ∧ s.size ≤ 64
  points : Points s.points
  nonempty : s.points ≠ []
  length_le : s.points.length ≤ maxStrokePoints * 3

/-- Within the caps and bounds, with distinct IDs. -/
structure CanvasPage.Sound (p : CanvasPage) : Prop where
  boxes_le : p.boxes.length ≤ maxBoxes
  strokes_le : p.strokes.length ≤ maxStrokes
  boxes_nodup : (p.boxes.map CanvasBox.id).Nodup
  strokes_nodup : (p.strokes.map CanvasStroke.id).Nodup
  boxes : ∀ b ∈ p.boxes, b.Sound
  strokes : ∀ s ∈ p.strokes, s.Sound

/-- Blocks, which are records. -/
def Records (blocks : List Value) : Prop := blocks ≠ [] ∧ ∀ v ∈ blocks, isRecord v = true

/-- The page of a body is within the bounds, has records for blocks, and is opened again from what is saved of it. -/
structure Stable (N : Numbers) (body : JsString) : Prop where
  sound : (openPage N body).Sound
  records : ∀ b ∈ (openPage N body).boxes, Records b.blocks
  reopens : (openPage N (stringifyCanvasPage N (openPage N body).toCanvasPage)).toCanvasPage = (openPage N body).toCanvasPage

/-! ## Items -/

/-- The entries that count: the first with each ID, of those that have one. -/
def counted : List JsString → List Value → List Value
  | _, [] => []
  | seen, entry :: entries =>
    match itemId entry with
    | some id => if seen.contains id then counted seen entries else entry :: counted (seen ++ [id]) entries
    | none => counted seen entries

section Items

variable {α : Type} {id : α → JsString} {parse : Value → Option α}

theorem any_id {items : List α} {item : α} : (items.any fun i => id i = id item) = true ↔ id item ∈ items.map id := by
  rw [List.any_eq_true, List.mem_map]
  exact exists_congr fun i => and_congr_right fun _ => decide_eq_true_iff

theorem length_addItem_le (items : List α) (entry : Value) : (addItem id parse items entry).length ≤ items.length + 1 := by
  unfold addItem
  split
  · split
    · exact Nat.le_succ _
    · rw [List.length_append, List.length_singleton]
  · exact Nat.le_succ _

theorem length_foldl_addItem_le (entries : List Value) : ∀ items : List α,
    (entries.foldl (addItem id parse) items).length ≤ items.length + entries.length := by
  induction entries with
  | nil => exact fun items => Nat.le_refl _
  | cons entry entries ih =>
    intro items
    have h := ih (addItem id parse items entry)
    have hadd : (addItem id parse items entry).length ≤ items.length + 1 := length_addItem_le items entry
    rw [List.foldl_cons, List.length_cons]
    omega

theorem length_parseItems_le (list : Option Value) (max : ℕ) : (parseItems id parse list max).length ≤ max := by
  have h : (parseItems id parse list max).length ≤ ([] : List α).length + ((elements list).take max).length :=
    length_foldl_addItem_le _ []
  rw [List.length_nil, Nat.zero_add, List.length_take] at h
  exact h.trans (Nat.min_le_left _ _)

theorem nodup_addItem {items : List α} (h : (items.map id).Nodup) (entry : Value) :
    ((addItem id parse items entry).map id).Nodup := by
  unfold addItem
  split
  · split
    · exact h
    · next hnew =>
      rw [List.map_append, List.map_singleton, ← List.concat_eq_append]
      exact h.concat fun hmem => hnew (any_id.mpr hmem)
  · exact h

theorem nodup_foldl_addItem (entries : List Value) : ∀ {items : List α}, (items.map id).Nodup →
    ((entries.foldl (addItem id parse) items).map id).Nodup := by
  induction entries with
  | nil => exact fun h => h
  | cons entry entries ih => exact fun h => ih (nodup_addItem h entry)

theorem nodup_parseItems (list : Option Value) (max : ℕ) : ((parseItems id parse list max).map id).Nodup :=
  nodup_foldl_addItem _ List.nodup_nil

theorem mem_foldl_addItem {item : α} (entries : List Value) : ∀ {items : List α},
    item ∈ entries.foldl (addItem id parse) items → item ∈ items ∨ ∃ entry ∈ entries, parse entry = some item := by
  induction entries with
  | nil => exact fun h => .inl h
  | cons entry entries ih =>
    intro items h
    rcases ih h with h | ⟨e, he, hitem⟩
    · unfold addItem at h
      split at h
      · next found hparse =>
        split at h
        · exact .inl h
        · rcases List.mem_append.mp h with h | h
          · exact .inl h
          · exact .inr ⟨entry, List.mem_cons_self, List.mem_singleton.mp h ▸ hparse⟩
      · exact .inl h
    · exact .inr ⟨e, List.mem_cons_of_mem _ he, hitem⟩

/-- Every item is of an element of the list. -/
theorem mem_parseItems {list : Option Value} {max : ℕ} {item : α} (h : item ∈ parseItems id parse list max) :
    ∃ entry ∈ elements list, parse entry = some item := by
  rcases mem_foldl_addItem _ h with h | ⟨entry, he, hitem⟩
  · exact absurd h List.not_mem_nil
  · exact ⟨entry, List.mem_of_mem_take he, hitem⟩

/-- Items with distinct IDs are read back from what each of them is written as. -/
theorem foldl_addItem_map {β : Type} {encode : β → Value} {item : β → α} (bs : List β)
    (hparse : ∀ b ∈ bs, parse (encode b) = some (item b)) : ∀ {items : List α},
    ((items ++ bs.map item).map id).Nodup → (bs.map encode).foldl (addItem id parse) items = items ++ bs.map item := by
  induction bs with
  | nil => exact fun _ => (List.append_nil _).symm
  | cons b bs ih =>
    intro items h
    rw [List.forall_mem_cons] at hparse
    have hnew : id (item b) ∉ items.map id := by
      rw [List.map_append, List.map_cons, List.map_cons] at h
      exact fun hmem => List.disjoint_of_nodup_append h hmem List.mem_cons_self
    have hadd : addItem id parse items (encode b) = items ++ [item b] := by
      unfold addItem
      rw [hparse.1]
      exact if_neg fun hany => hnew (any_id.mp hany)
    rw [List.map_cons, List.append_cons] at h
    rw [List.map_cons, List.foldl_cons, hadd, ih hparse.2 h, List.append_assoc]
    rfl

theorem parseItems_map {β : Type} {encode : β → Value} {item : β → α} {bs : List β} {max : ℕ} (hlength : bs.length ≤ max)
    (hnodup : ((bs.map item).map id).Nodup) (hparse : ∀ b ∈ bs, parse (encode b) = some (item b)) :
    parseItems id parse (some (.arr (bs.map encode))) max = bs.map item := by
  have htake : (bs.map encode).take max = bs.map encode := List.take_of_length_le (by rwa [List.length_map])
  rw [parseItems, elements, htake]
  exact foldl_addItem_map bs hparse hnodup

end Items

/-- The boxes are those of the entries that count. -/
theorem foldl_addItem_box (entries : List Value) : ∀ {items : List CanvasBox},
    entries.foldl (addItem CanvasBox.id parseBox) items = items ++ (counted (items.map CanvasBox.id) entries).filterMap parseBox := by
  induction entries with
  | nil => exact (List.append_nil _).symm
  | cons entry entries ih =>
    intro items
    rw [List.foldl_cons, ih, counted]
    cases hid : itemId entry with
    | none =>
      have hparse : parseBox entry = none := by rw [parseBox, hid, Option.map_none]
      have hadd : addItem CanvasBox.id parseBox items entry = items := by rw [addItem, hparse]
      rw [hadd]
    | some id =>
      obtain ⟨box, hparse, hbox⟩ : ∃ box, parseBox entry = some box ∧ box.id = id := by
        rw [parseBox, hid, Option.map_some]
        exact ⟨_, rfl, rfl⟩
      dsimp only
      by_cases hseen : id ∈ items.map CanvasBox.id
      · have hadd : addItem CanvasBox.id parseBox items entry = items := by
          unfold addItem
          rw [hparse]
          exact if_pos (any_id.mpr (hbox ▸ hseen))
        rw [hadd, if_pos (List.contains_iff_mem.mpr hseen)]
      · have hadd : addItem CanvasBox.id parseBox items entry = items ++ [box] := by
          unfold addItem
          rw [hparse]
          exact if_neg fun hany => hseen (hbox ▸ any_id.mp hany)
        rw [hadd, if_neg fun hc => hseen (List.contains_iff_mem.mp hc), List.filterMap_cons_some hparse, List.map_append,
          List.map_singleton, hbox, List.append_assoc]
        rfl

/-! ## Numbers within bounds -/

theorem clamp_finite {x : ℚ} (min max fallback : ℚ) :
    clamp (some (.num (.finite x))) min max fallback = Min.min max (Max.max min x) := rfl

theorem clamp_bounds (value : Option Value) {min max fallback : ℚ} (hle : min ≤ max) (hmin : min ≤ fallback)
    (hmax : fallback ≤ max) : min ≤ clamp value min max fallback ∧ clamp value min max fallback ≤ max := by
  unfold clamp
  split
  · exact ⟨le_min hle (le_max_left _ _), min_le_left _ _⟩
  · exact ⟨hmin, hmax⟩

theorem clamp_of_mem {x min max : ℚ} (fallback : ℚ) (h : min ≤ x ∧ x ≤ max) :
    clamp (some (.num (.finite x))) min max fallback = x := by
  rw [clamp_finite, max_eq_right h.1, min_eq_right h.2]

variable {N : Numbers}

theorem finiteOf_isNumber {value : Option Value} (h : ∀ v, value = some v → v.WF N) {x : ℚ} (hx : finiteOf value = some x) :
    N.IsNumber x := by
  unfold finiteOf at hx
  split at hx
  · cases hx
    exact h _ rfl
  · cases hx

theorem clamp_isNumber {value : Option Value} (h : ∀ v, value = some v → v.WF N) {min max fallback : ℚ}
    (hmin : N.IsNumber min) (hmax : N.IsNumber max) (hfallback : finiteOf value = none → N.IsNumber fallback) :
    N.IsNumber (clamp value min max fallback) := by
  unfold clamp
  split
  · next x hx =>
    rcases min_choice max (Max.max min x) with hc | hc <;> rw [hc]
    · exact hmax
    · rcases max_choice min x with hc | hc <;> rw [hc]
      · exact hmin
      · exact finiteOf_isNumber h hx
  · next hx => exact hfallback hx

theorem isNumber_of_nat {q : ℚ} (n : ℕ) (hn : n ≤ 2 ^ 53) (hq : (n : ℚ) = q) : N.IsNumber q := hq ▸ N.isNumber_natCast n hn

/-! ## What is opened -/

theorem itemId_isItemId {value : Value} {id : JsString} (h : itemId value = some id) : isItemId id = true :=
  (Option.filter_eq_some_iff.mp h).2

theorem elements_wf {value : Option Value} (h : ∀ v, value = some v → v.WF N) : ∀ v ∈ elements value, v.WF N := by
  unfold elements
  split
  · exact valuesWF_iff.mp (h _ rfl)
  · exact List.forall_mem_nil _

theorem prop_wf {value : Value} (h : value.WF N) (name : String) : ∀ v, prop name value = some v → v.WF N :=
  fun _ hv => get_wf h hv

theorem emptyDocument_blocks : Records emptyDocument ∧ (∀ v ∈ emptyDocument, v.WF N) ∧ ValuesFinite emptyDocument := by
  have hblock : IsBlock N emptyParagraph := emptyParagraph_isBlock
  exact ⟨⟨List.cons_ne_nil _ _, List.forall_mem_singleton.mpr hblock.1⟩, List.forall_mem_singleton.mpr hblock.2,
    ⟨⟨trivial, trivial, trivial⟩, trivial⟩⟩

/-- The record blocks of an entry. -/
def blocksOf (entry : Value) : List Value := (elements (prop "blocks" entry)).filter isRecord

theorem parseBox_spec {value : Value} {b : CanvasBox} (h : parseBox value = some b) :
    b.Sound ∧ Records b.blocks ∧ (ValuesFinite b.blocks ↔ ValuesFinite (blocksOf value)) ∧ (value.WF N → b.value.WF N) := by
  obtain ⟨id, hid, rfl⟩ := Option.map_eq_some_iff.mp h
  have hcoord : (0 : ℚ) ≤ maxCoord := by decide +kernel
  have hempty := @emptyDocument_blocks N
  refine ⟨⟨itemId_isItemId hid, clamp_bounds _ hcoord (le_refl _) hcoord, clamp_bounds _ hcoord (le_refl _) hcoord,
    clamp_bounds _ (by decide +kernel) (by decide +kernel) (by decide +kernel)⟩, ?_, ?_, fun hw => ?_⟩
  · dsimp only
    split
    · exact hempty.1
    · next hne => exact ⟨hne, fun v hv => (List.mem_filter.mp hv).2⟩
  · rw [blocksOf]
    dsimp only
    split
    · next hnil =>
      rw [hnil]
      exact iff_of_true hempty.2.2 trivial
    · exact Iff.rfl
  · have hnumber : ∀ name, ∀ v, prop name value = some v → v.WF N := prop_wf hw
    have hzero : N.IsNumber 0 := isNumber_of_nat 0 (Nat.zero_le _) rfl
    have hmax : N.IsNumber maxCoord := isNumber_of_nat 100000 (by decide) rfl
    refine object_wf ["id", "x", "y", "width", "blocks"] rfl (by decide) ?_
    simp only [List.forall_mem_cons]
    refine ⟨trivial, clamp_isNumber (hnumber "x") hzero hmax fun _ => hzero, clamp_isNumber (hnumber "y") hzero hmax fun _ => hzero,
      clamp_isNumber (hnumber "width") (isNumber_of_nat 160 (by decide) rfl) (isNumber_of_nat 2000 (by decide) rfl)
        fun _ => isNumber_of_nat 640 (by decide) rfl, valuesWF_iff.mpr ?_, List.forall_mem_nil _⟩
    split
    · exact hempty.2.1
    · exact fun v hv => elements_wf (hnumber "blocks") v (List.mem_filter.mp hv).1

theorem points_pointsOf : ∀ raw : List Value, Points (pointsOf raw) ∧ (pointsOf raw).length ≤ raw.length ∧
    (ValuesWF N raw → ∀ q ∈ pointsOf raw, N.IsNumber q)
  | x :: y :: p :: raw => by
    obtain ⟨hpoints, hlength, hnumbers⟩ := points_pointsOf raw
    rw [pointsOf]
    split
    · next hfinite =>
      obtain ⟨hx, hy, hp⟩ := hfinite
      have hcoord : (0 : ℚ) ≤ maxCoord := by decide +kernel
      have hzero : N.IsNumber 0 := isNumber_of_nat 0 (Nat.zero_le _) rfl
      have hmax : N.IsNumber maxCoord := isNumber_of_nat 100000 (by decide) rfl
      have hone : N.IsNumber 1 := isNumber_of_nat 1 (by decide) rfl
      have hsome : ∀ {v : Value}, (finiteOf (some v)).isSome → finiteOf (some v) = none → N.IsNumber (1 / 2) := by
        intro v hv hnone
        rw [hnone] at hv
        cases hv
      refine ⟨⟨clamp_bounds _ hcoord (le_refl _) hcoord, clamp_bounds _ hcoord (le_refl _) hcoord,
        clamp_bounds _ (by decide +kernel) (by decide +kernel) (by decide +kernel), hpoints⟩, ?_, ?_⟩
      · simp only [List.length_append, List.length_cons, List.length_nil]
        omega
      · rintro ⟨hwx, hwy, hwp, hw⟩
        have hself : ∀ {v : Value}, v.WF N → ∀ u, some v = some u → u.WF N := fun hv u hu => Option.some.inj hu ▸ hv
        simp only [List.cons_append, List.nil_append, List.forall_mem_cons]
        exact ⟨clamp_isNumber (hself hwx) hzero hmax fun _ => hzero, clamp_isNumber (hself hwy) hzero hmax fun _ => hzero,
          clamp_isNumber (hself hwp) hzero hone (hsome hp), hnumbers hw⟩
    · refine ⟨hpoints, ?_, fun hw => hnumbers hw.2.2.2⟩
      simp only [List.nil_append, List.length_cons]
      omega
  | [] => ⟨trivial, Nat.le_refl _, fun _ => List.forall_mem_nil _⟩
  | [_] => ⟨trivial, Nat.zero_le _, fun _ => List.forall_mem_nil _⟩
  | [_, _] => ⟨trivial, Nat.zero_le _, fun _ => List.forall_mem_nil _⟩

theorem parseStroke_spec {value : Value} {s : CanvasStroke} (h : parseStroke value = some s) :
    s.Sound ∧ (value.WF N → s.value.WF N) := by
  unfold parseStroke at h
  split at h
  · next id raw hid hraw =>
    dsimp only at h
    split at h
    · cases h
    · next hne =>
      cases h
      obtain ⟨hpoints, hlength, hnumbers⟩ := @points_pointsOf N (raw.take (maxStrokePoints * 3))
      refine ⟨⟨itemId_isItemId hid, clamp_bounds _ (by decide +kernel) (by decide +kernel) (by decide +kernel), hpoints, hne,
        hlength.trans (List.length_take_le _ _)⟩, fun hw => ?_⟩
      have hwraw : ValuesWF N raw := prop_wf hw "points" _ hraw
      refine object_wf ["id", "tool", "color", "size", "points"] rfl (by decide) ?_
      simp only [List.forall_mem_cons]
      refine ⟨trivial, trivial, trivial, clamp_isNumber (prop_wf hw "size") (isNumber_of_nat 1 (by decide) rfl)
        (isNumber_of_nat 64 (by decide) rfl) fun _ => isNumber_of_nat 4 (by decide) rfl, valuesWF_iff.mpr ?_, List.forall_mem_nil _⟩
      intro v hv
      obtain ⟨q, hq, rfl⟩ := List.mem_map.mp hv
      exact hnumbers (valuesWF_iff.mpr fun v hv => valuesWF_iff.mp hwraw v (List.mem_of_mem_take hv)) q hq
  · cases h

theorem parseNoteDocument_spec (body : JsString) : (∀ v ∈ parseNoteDocument N body, v.WF N) ∧
    ((parse N body).bind noteDocument = none → Records (parseNoteDocument N body)) := by
  have hempty := @emptyDocument_blocks N
  rw [parseNoteDocument]
  cases hdocument : (parse N body).bind noteDocument with
  | some document =>
    refine ⟨?_, nofun⟩
    obtain ⟨value, hvalue, hnote⟩ := Option.bind_eq_some_iff.mp hdocument
    unfold noteDocument at hnote
    split at hnote
    · split at hnote
      · next hprop =>
        cases hnote
        exact valuesWF_iff.mp (prop_wf (parse_wf hvalue) "document" _ hprop)
      · cases hnote
    · cases hnote
  | none =>
    dsimp only
    cases hlegacy : legacyTiptapDocument N body with
    | some legacy =>
      obtain ⟨value, hvalue, hread⟩ := Option.bind_eq_some_iff.mp hlegacy
      have hblocks := legacyTiptap_areBlocks (parse_wf hvalue) legacy hread
      dsimp only
      split
      · exact ⟨hempty.2.1, fun _ => hempty.1⟩
      · next hne => exact ⟨fun v hv => (hblocks v hv).2, fun _ => ⟨hne, fun v hv => (hblocks v hv).1⟩⟩
    | none =>
      dsimp only
      split
      · exact ⟨hempty.2.1, fun _ => hempty.1⟩
      · have htext : (object [("type", literal "paragraph"), ("content", .str body)]).WF N := by
          refine object_wf ["type", "content"] rfl (by decide) ?_
          simp only [List.forall_mem_cons]
          exact ⟨trivial, trivial, List.forall_mem_nil _⟩
        exact ⟨List.forall_mem_singleton.mpr htext, fun _ => ⟨List.cons_ne_nil _ _, List.forall_mem_singleton.mpr rfl⟩⟩

variable (N) in
/-- Every page is within the caps and bounds, and is one that can be written. -/
theorem openPage_sound (body : JsString) : (openPage N body).Sound ∧ (openPage N body).toCanvasPage.value.WF N := by
  have hpage : ∀ p : CanvasPage, (∀ b ∈ p.boxes, b.value.WF N) → (∀ s ∈ p.strokes, s.value.WF N) → p.value.WF N := by
    intro p hb hs
    refine object_wf ["format", "boxes", "strokes"] rfl (by decide) ?_
    simp only [List.forall_mem_cons]
    exact ⟨trivial, valuesWF_iff.mpr (List.forall_mem_map.mpr hb), valuesWF_iff.mpr (List.forall_mem_map.mpr hs),
      List.forall_mem_nil _⟩
  rw [openPage]
  cases hvalue : canvasValue N body with
  | some value =>
    have hw : value.WF N := parse_wf (Option.filter_eq_some_iff.mp hvalue).1
    have hentry : ∀ name, ∀ v ∈ elements (prop name value), v.WF N := fun name => elements_wf (prop_wf hw name)
    refine ⟨⟨length_parseItems_le _ _, length_parseItems_le _ _, nodup_parseItems _ _, nodup_parseItems _ _, fun b hb => ?_,
      fun s hs => ?_⟩, hpage _ (fun b hb => ?_) fun s hs => ?_⟩
    · obtain ⟨entry, -, hparse⟩ := mem_parseItems hb
      exact (@parseBox_spec N _ _ hparse).1
    · obtain ⟨entry, -, hparse⟩ := mem_parseItems hs
      exact (@parseStroke_spec N _ _ hparse).1
    · obtain ⟨entry, he, hparse⟩ := mem_parseItems hb
      exact (parseBox_spec hparse).2.2.2 (hentry "boxes" entry he)
    · obtain ⟨entry, he, hparse⟩ := mem_parseItems hs
      exact (parseStroke_spec hparse).2 (hentry "strokes" entry he)
  | none =>
    have hzero : N.IsNumber 0 := isNumber_of_nat 0 (Nat.zero_le _) rfl
    have hcoord : (0 : ℚ) ≤ maxCoord := by decide +kernel
    have hid : isItemId legacyBox = true := by decide
    have hwidth : boxMinWidth ≤ defaultBoxWidth ∧ defaultBoxWidth ≤ boxMaxWidth := by decide +kernel
    refine ⟨⟨(by decide : 1 ≤ maxBoxes), (by decide : 0 ≤ maxStrokes), List.nodup_singleton _, List.nodup_nil,
      List.forall_mem_singleton.mpr ?_, List.forall_mem_nil _⟩, hpage _ (List.forall_mem_singleton.mpr ?_) (List.forall_mem_nil _)⟩
    · exact ⟨hid, ⟨le_refl _, hcoord⟩, ⟨le_refl _, hcoord⟩, hwidth⟩
    · refine object_wf ["id", "x", "y", "width", "blocks"] rfl (by decide) ?_
      simp only [List.forall_mem_cons]
      exact ⟨trivial, hzero, hzero, isNumber_of_nat 640 (by decide) rfl,
        valuesWF_iff.mpr (parseNoteDocument_spec body).1, List.forall_mem_nil _⟩

/-! ## Opening what was saved -/

theorem ofText_beq (s t : String) : (Utf16.ofText s == Utf16.ofText t) = (s == t) := by
  rw [Bool.eq_iff_iff, beq_iff_eq, beq_iff_eq, Utf16.ofText_injective.eq_iff]

theorem prop_object (members : List (String × Value)) (name : String) : prop name (object members) = members.lookup name := by
  induction members with
  | nil => rfl
  | cons m members ih =>
    have hstep : prop name (object (m :: members)) =
        match Utf16.ofText name == Utf16.ofText m.1 with
        | true => some m.2
        | false => prop name (object members) := rfl
    rw [hstep, ofText_beq, ih]
    rfl

theorem parseBox_value {b : CanvasBox} (h : b.Sound) (hr : Records b.blocks) : parseBox b.value = some b := by
  have hid : itemId b.value = some b.id := by
    have hprop : stringProp "id" b.value = some b.id := by simp [stringProp, CanvasBox.value, prop_object]
    rw [itemId, hprop, Option.filter_some, if_pos h.id]
  have hx : prop "x" b.value = some (.num (.finite b.x)) := by simp [CanvasBox.value, prop_object, List.lookup_cons]
  have hy : prop "y" b.value = some (.num (.finite b.y)) := by simp [CanvasBox.value, prop_object, List.lookup_cons]
  have hwidth : prop "width" b.value = some (.num (.finite b.width)) := by simp [CanvasBox.value, prop_object, List.lookup_cons]
  have hblocks : prop "blocks" b.value = some (.arr b.blocks) := by simp [CanvasBox.value, prop_object, List.lookup_cons]
  have hfilter : (elements (some (.arr b.blocks))).filter isRecord = b.blocks := List.filter_eq_self.mpr hr.2
  rw [parseBox, hid, Option.map_some, hx, hy, hwidth, hblocks, clamp_of_mem _ h.x, clamp_of_mem _ h.y, clamp_of_mem _ h.width]
  dsimp only
  rw [hfilter, if_neg hr.1]

theorem pointsOf_numbers : ∀ {xs : List ℚ}, Points xs → pointsOf (xs.map fun x => .num (.finite x)) = xs
  | [], _ => rfl
  | x :: y :: p :: xs, h => by
    obtain ⟨hx, hy, hp, hxs⟩ := h
    rw [List.map_cons, List.map_cons, List.map_cons, pointsOf, if_pos ⟨rfl, rfl, rfl⟩, clamp_of_mem _ hx, clamp_of_mem _ hy,
      clamp_of_mem _ hp, pointsOf_numbers hxs]
    rfl

theorem parseStroke_value {s : CanvasStroke} (h : s.Sound) : parseStroke s.value = some s := by
  have hid : itemId s.value = some s.id := by
    have hprop : stringProp "id" s.value = some s.id := by simp [stringProp, CanvasStroke.value, prop_object]
    rw [itemId, hprop, Option.filter_some, if_pos h.id]
  have hpoints : prop "points" s.value = some (.arr (s.points.map fun x => .num (.finite x))) := by
    simp [CanvasStroke.value, prop_object, List.lookup_cons, numbers]
  have htool : stringProp "tool" s.value = some s.tool.name := by
    simp [stringProp, CanvasStroke.value, prop_object, List.lookup_cons]
  have hcolor : stringProp "color" s.value = some s.color.name := by
    simp [stringProp, CanvasStroke.value, prop_object, List.lookup_cons]
  have hsize : prop "size" s.value = some (.num (.finite s.size)) := by
    simp [CanvasStroke.value, prop_object, List.lookup_cons]
  have hcolor' : ∀ c : InkColor, inkColor (some c.name) = c := by
    intro c
    cases c <;> decide
  have htool' : ∀ t : Tool, (if some t.name = some Tool.highlighter.name then Tool.highlighter else .pen) = t := by
    intro t
    cases t <;> decide
  have htake : (s.points.map fun x => Value.num (.finite x)).take (maxStrokePoints * 3) = s.points.map fun x => .num (.finite x) :=
    List.take_of_length_le (by rw [List.length_map]; exact h.length_le)
  rw [parseStroke, hid, hpoints]
  dsimp only
  rw [htake, pointsOf_numbers h.points, if_neg h.nonempty, htool, hcolor, hsize, hcolor', htool', clamp_of_mem _ h.size]

/-- A box after its blocks were written and read. -/
def CanvasBox.reread (b : CanvasBox) : CanvasBox := { b with blocks := rereadValues b.blocks }

theorem records_reread {vs : List Value} (h : Records vs) : Records (rereadValues vs) := by
  rw [rereadValues_eq_map]
  refine ⟨fun hnil => h.1 (List.map_eq_nil_iff.mp hnil), List.forall_mem_map.mpr fun v hv => ?_⟩
  have hrecord := h.2 v hv
  cases v with
  | obj ms => rfl
  | null | bool | num | str | arr => cases hrecord

theorem stroke_reread (s : CanvasStroke) : s.value.reread = s.value := by
  have hpoints : rereadValues (s.points.map fun x => Value.num (.finite x)) = s.points.map fun x => .num (.finite x) := by
    rw [rereadValues_eq_map, List.map_map]
    rfl
  simp only [CanvasStroke.value, object, numbers, List.map_cons, List.map_nil, Value.reread, rereadMembers, hpoints]

theorem page_reread (p : CanvasPage) : p.value.reread = { p with boxes := p.boxes.map CanvasBox.reread }.value := by
  have hboxes : rereadValues (p.boxes.map CanvasBox.value) = (p.boxes.map CanvasBox.reread).map CanvasBox.value := by
    rw [rereadValues_eq_map, List.map_map, List.map_map]
    refine List.map_congr_left fun b _ => ?_
    simp only [Function.comp_apply, CanvasBox.value, CanvasBox.reread, object, List.map_cons, List.map_nil, Value.reread, rereadMembers]
  have hstrokes : rereadValues (p.strokes.map CanvasStroke.value) = p.strokes.map CanvasStroke.value := by
    rw [rereadValues_eq_map, List.map_map]
    exact List.map_congr_left fun s _ => stroke_reread s
  simp only [CanvasPage.value, object, List.map_cons, List.map_nil, Value.reread, rereadMembers, hboxes, hstrokes]

/-- A page that is within the bounds and has records for blocks is read back, but for what is not finite in them. -/
theorem reopened {p : CanvasPage} (hs : p.Sound) (hr : ∀ b ∈ p.boxes, Records b.blocks) (hw : p.value.WF N) :
    (openPage N (stringifyCanvasPage N p)).toCanvasPage = { p with boxes := p.boxes.map CanvasBox.reread } := by
  have hcanvas : canvasValue N (stringifyCanvasPage N p) = some { p with boxes := p.boxes.map CanvasBox.reread }.value := by
    have hformat : stringProp "format" { p with boxes := p.boxes.map CanvasBox.reread }.value = some canvasFormat := by
      simp [stringProp, CanvasPage.value, prop_object]
    rw [canvasValue, stringifyCanvasPage, parse_stringify hw, page_reread, Option.filter_some, hformat, beq_self_eq_true,
      if_pos rfl]
  have hboxes : prop "boxes" { p with boxes := p.boxes.map CanvasBox.reread }.value =
      some (.arr ((p.boxes.map CanvasBox.reread).map CanvasBox.value)) := by
    rw [CanvasPage.value, prop_object]
    simp [List.lookup_cons]
  have hstrokes : prop "strokes" { p with boxes := p.boxes.map CanvasBox.reread }.value =
      some (.arr (p.strokes.map CanvasStroke.value)) := by
    rw [CanvasPage.value, prop_object]
    simp [List.lookup_cons]
  have hreadBoxes : parseItems CanvasBox.id parseBox (some (.arr ((p.boxes.map CanvasBox.reread).map CanvasBox.value))) maxBoxes =
      (p.boxes.map CanvasBox.reread).map id := by
    refine parseItems_map (by rw [List.length_map]; exact hs.boxes_le) ?_ fun b hb => ?_
    · rw [List.map_id, List.map_map]
      exact hs.boxes_nodup
    · obtain ⟨b, hmem, rfl⟩ := List.mem_map.mp hb
      have hsound := hs.boxes b hmem
      exact parseBox_value ⟨hsound.id, hsound.x, hsound.y, hsound.width⟩ (records_reread (hr b hmem))
  have hreadStrokes : parseItems CanvasStroke.id parseStroke (some (.arr (p.strokes.map CanvasStroke.value))) maxStrokes =
      p.strokes.map id :=
    parseItems_map hs.strokes_le (by rw [List.map_id]; exact hs.strokes_nodup) fun s hs' => parseStroke_value (hs.strokes s hs')
  rw [openPage, hcanvas]
  dsimp only
  rw [hboxes, hstrokes, hreadBoxes, hreadStrokes, List.map_id, List.map_id]

/-! ## Which pages are stable -/

theorem stable_iff_blocks {body : JsString} :
    Stable N body ↔ ∀ b ∈ (openPage N body).boxes, Records b.blocks ∧ ValuesFinite b.blocks := by
  obtain ⟨hsound, hw⟩ := openPage_sound N body
  constructor
  · intro h b hb
    have hboxes : (openPage N body).boxes.map CanvasBox.reread = (openPage N body).boxes.map id := by
      rw [List.map_id]
      exact (congrArg CanvasPage.boxes (reopened hsound h.records hw)).symm.trans (congrArg CanvasPage.boxes h.reopens)
    have hsame : b.reread = b := List.map_inj_left.mp hboxes b hb
    exact ⟨h.records b hb, rereadValues_eq_self_iff.mp (congrArg CanvasBox.blocks hsame)⟩
  · intro h
    have hrecords : ∀ b ∈ (openPage N body).boxes, Records b.blocks := fun b hb => (h b hb).1
    have hboxes : (openPage N body).boxes.map CanvasBox.reread = (openPage N body).boxes := by
      refine (List.map_congr_left fun b hb => ?_).trans (List.map_id _)
      rw [CanvasBox.reread, rereadValues_eq_self_iff.mpr (h b hb).2]
      rfl
    refine ⟨hsound, hrecords, ?_⟩
    rw [reopened hsound hrecords hw, hboxes]

variable (N) in
/-- The body of a canvas has only finite numbers in the record blocks of the entries that count; the document of a body of the note
format is records with finite numbers; and the headings of an older document have finite levels. -/
def Settled (body : JsString) : Prop :=
  match canvasValue N body with
  | some value => ∀ entry ∈ counted [] ((elements (prop "boxes" value)).take maxBoxes), ValuesFinite (blocksOf entry)
  | none =>
    match (parse N body).bind noteDocument with
    | some document => Records document ∧ ValuesFinite document
    | none => ∀ value, parse N body = some value → (legacyTiptap N value).isSome → AllFinite (headingLevels N value)

variable (N) in
/-- A body is opened as a page within the caps and bounds, with distinct IDs and records for blocks, that is opened again from what
is saved of it, exactly where the body is settled. -/
theorem openPage_stable_iff (body : JsString) : Stable N body ↔ Settled N body := by
  rw [stable_iff_blocks, Settled, openPage]
  cases hvalue : canvasValue N body with
  | some value =>
    have hboxes : parseItems CanvasBox.id parseBox (prop "boxes" value) maxBoxes =
        (counted [] ((elements (prop "boxes" value)).take maxBoxes)).filterMap parseBox := foldl_addItem_box _
    have hcounted : ∀ entries seen, ∀ entry ∈ counted seen entries, ∃ b, parseBox entry = some b := by
      intro entries
      induction entries with
      | nil => exact fun _ _ h => absurd h List.not_mem_nil
      | cons e entries ih =>
        intro seen entry h
        unfold counted at h
        split at h
        · next id hid =>
          split at h
          · exact ih seen entry h
          · rcases List.mem_cons.mp h with rfl | h
            · rw [parseBox, hid]
              exact ⟨_, rfl⟩
            · exact ih _ entry h
        · exact ih seen entry h
    dsimp only
    rw [hboxes]
    constructor
    · intro h entry he
      obtain ⟨b, hb⟩ := hcounted _ _ entry he
      exact (@parseBox_spec N _ _ hb).2.2.1.mp (h b (List.mem_filterMap.mpr ⟨entry, he, hb⟩)).2
    · intro h b hb
      obtain ⟨entry, he, hb⟩ := List.mem_filterMap.mp hb
      obtain ⟨-, hrecords, hfinite, -⟩ := @parseBox_spec N _ _ hb
      exact ⟨hrecords, hfinite.mpr (h entry he)⟩
  | none =>
    have hempty := @emptyDocument_blocks N
    dsimp only
    rw [List.forall_mem_singleton]
    dsimp only
    cases hdocument : (parse N body).bind noteDocument with
    | some document => rw [parseNoteDocument, hdocument]
    | none =>
      have hrecords : Records (parseNoteDocument N body) := (parseNoteDocument_spec body).2 hdocument
      have hfinite : ValuesFinite (parseNoteDocument N body) ↔
          ∀ value, parse N body = some value → (legacyTiptap N value).isSome → AllFinite (headingLevels N value) := by
        rw [parseNoteDocument, hdocument]
        dsimp only
        cases hlegacy : legacyTiptapDocument N body with
        | some legacy =>
          obtain ⟨value, hvalue, hread⟩ := Option.bind_eq_some_iff.mp hlegacy
          have hlevels : ValuesFinite legacy ↔ AllFinite (headingLevels N value) := legacyTiptap_finite_iff hread
          have hparsed : (∀ value, parse N body = some value → (legacyTiptap N value).isSome → AllFinite (headingLevels N value)) ↔
              AllFinite (headingLevels N value) := by
            refine ⟨fun h => h value hvalue (hread ▸ rfl), fun h v hv _ => ?_⟩
            rw [Option.some.inj (hv.symm.trans hvalue)]
            exact h
          rw [hparsed, ← hlevels]
          dsimp only
          split
          · next hnil => exact iff_of_true hempty.2.2 (hnil ▸ trivial)
          · exact Iff.rfl
        | none =>
          refine iff_of_true ?_ fun value hvalue hsome => ?_
          · dsimp only
            split
            · exact hempty.2.2
            · exact ⟨⟨trivial, trivial, trivial⟩, trivial⟩
          · rw [legacyTiptapDocument, hvalue, Option.bind_some] at hlegacy
            rw [hlegacy] at hsome
            cases hsome
      exact ⟨fun h => hfinite.mp h.2, fun h => ⟨hrecords, hfinite.mpr h⟩⟩

/-! ## A document without blocks -/

/-- The digits of a whole number. -/
def wholeText (n : ℕ) : List ℕ := if n = 0 then [48] else (Nat.digits 10 n).reverse.map (· + 48)

def wholeValue (w : List ℕ) : ℕ := Nat.ofDigits 10 (w.map (· - 48)).reverse

theorem wholeValue_text (n : ℕ) : wholeValue (wholeText n) = n := by
  unfold wholeText wholeValue
  split
  · next h => exact h.symm
  · rw [List.map_map, List.map_reverse, List.reverse_reverse]
    have hid : ((fun d : ℕ => d - 48) ∘ fun d => d + 48) = id := funext fun d => Nat.add_sub_cancel d 48
    rw [hid, List.map_id, Nat.ofDigits_digits]

theorem wholeText_isNumber (n : ℕ) : JsonText.isNumber (wholeText n) = true := by
  unfold wholeText
  split
  · decide
  · next hn =>
    have hdigits : ∀ c ∈ (Nat.digits 10 n).reverse.map (· + 48), JsonText.isDigit c = true := by
      intro c hc
      obtain ⟨d, hd, rfl⟩ := List.mem_map.mp hc
      have hlt : d < 10 := Nat.digits_lt_base (by decide) (List.mem_reverse.mp hd)
      exact decide_eq_true (by omega)
    have hhead : ((Nat.digits 10 n).reverse.map (· + 48)).head? ≠ some 48 := by
      have hne : Nat.digits 10 n ≠ [] := Nat.digits_ne_nil_iff_ne_zero.mpr hn
      have hlast := Nat.getLast_digit_ne_zero 10 hn
      rw [List.head?_map, List.head?_reverse, List.getLast?_eq_some_getLast hne, Option.map_some]
      intro h
      exact hlast (Nat.add_right_cancel (m := 48) (Option.some.inj h))
    cases hw : (Nat.digits 10 n).reverse.map (· + 48) with
    | nil =>
      rw [List.map_eq_nil_iff, List.reverse_eq_nil_iff] at hw
      exact absurd hw (Nat.digits_ne_nil_iff_ne_zero.mpr hn)
    | cons c w =>
      rw [hw, List.forall_mem_cons] at hdigits
      rw [hw, List.head?_cons] at hhead
      have hc : 48 ≤ c ∧ c ≤ 57 := of_decide_eq_true hdigits.1
      have hrest : w.dropWhile JsonText.isDigit = [] := List.dropWhile_eq_nil_iff.mpr hdigits.2
      have h45 : c ≠ 45 := by omega
      have h48 : c ≠ 48 := fun h => hhead (congrArg some h)
      simp [JsonText.isNumber, JsonText.afterInteger, JsonText.afterDigits, JsonText.afterFraction, JsonText.afterExponent,
        h45, h48, hdigits.1, hrest]

/-- The whole numbers up to `2 ^ 53`, of which every other number is too large. -/
def wholeNumbers : Numbers where
  IsNumber x := ∃ n : ℕ, n ≤ 2 ^ 53 ∧ x = n
  read w := if wholeValue w ≤ 2 ^ 53 then .finite (wholeValue w) else .infinite false
  write x := wholeText x.num.natAbs
  ofString _ := none
  isNumber_natCast n hn := ⟨n, hn, rfl⟩
  isNumber_read w x h := by
    split at h
    · next hle =>
      cases h
      exact ⟨_, hle, rfl⟩
    · cases h
  isNumber_ofString _ _ h := by cases h
  write_literal x _ := wholeText_isNumber _
  read_write x h := by
    obtain ⟨n, hn, rfl⟩ := h
    rw [Rat.num_natCast, Int.natAbs_natCast, wholeValue_text, if_pos hn]

/-- The body that `stringifyNoteDocument` makes of no blocks. -/
def emptyNote : JsString := Utf16.ofText "\x7b\"format\":\"kynotes.blocknote.v1\",\"document\":[]\x7d"

def emptyNoteValue : Value := object [("format", .str noteFormat), ("document", .arr [])]

/-- A body of the note format without blocks is opened as a box without blocks. -/
theorem unstable_of_parse {body : JsString} (hparse : parse N body = some emptyNoteValue) : ¬Stable N body := by
  have hformat : stringProp "format" emptyNoteValue = some noteFormat := by
    simp only [emptyNoteValue, stringProp, prop_object, List.lookup_cons_self]
  have hne : (noteFormat == canvasFormat) = false := by decide +kernel
  have hcanvas : canvasValue N body = none := by
    rw [canvasValue, hparse, Option.filter_some, hformat, Option.some_beq_some, hne]
    rfl
  have hnote : noteDocument emptyNoteValue = some [] := by
    simp [emptyNoteValue, noteDocument, stringProp, prop_object, List.lookup_cons]
  have hdocument : parseNoteDocument N body = [] := by
    rw [parseNoteDocument, hparse, Option.bind_some, hnote]
  intro h
  have hrecords := h.records
  rw [openPage, hcanvas] at hrecords
  exact (List.forall_mem_singleton.mp hrecords).1 hdocument

theorem parse_emptyNote : parse N emptyNote = some emptyNoteValue := by
  have htree : toTree N emptyNoteValue = .obj [(quoteString (Utf16.ofText "format"), .str (quoteString noteFormat)),
      (quoteString (Utf16.ofText "document"), .arr [])] := rfl
  have hbody : emptyNote = stringify N emptyNoteValue := by
    rw [stringify, htree]
    decide +kernel
  have hfinite : emptyNoteValue.Finite := ⟨trivial, trivial, trivial⟩
  have hw : emptyNoteValue.WF N := by
    refine object_wf ["format", "document"] rfl (by decide) ?_
    simp only [List.forall_mem_cons]
    exact ⟨trivial, trivial, List.forall_mem_nil _⟩
  rw [hbody, parse_stringify hw, reread_eq_self_iff.mpr hfinite]

theorem emptyNote_unstable : ¬Stable wholeNumbers emptyNote := unstable_of_parse parse_emptyNote

end KyNotes.Document
