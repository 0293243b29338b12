import KyNotes.Bridge.Markdown
import KyNotes.Setup.Receipts

/-!
# Markdown that is written reads back

The body of a new page is read as its blocks line by line (`pageMarkdown_newPageBody`), and the lines of blocks that were made from
lines are split again as they were (`blocksOf_linesFrom`).
-/

namespace KyNotes.Bridge.Markdown

open Cleanup.Stored JsonText Setup

variable {int : List ℕ → ℤ} {canvas other : Tree → Text}

/-! ## JSON -/

theorem plainItem_cases (c : Char) : plainItem c = .char c.toNat ∧ (Item.char c.toNat).Printable ∨
    plainItem c = .unit c.toNat ∧ c.toNat < 0xd800 := by
  by_cases hshort : (shortOf.lookup c.toNat).isSome
  · exact .inl ⟨if_pos hshort, Or.inr hshort⟩
  · have hitem : plainItem c = if c.toNat < 0x20 ∨ c = '\u2028' ∨ c = '\u2029' then .unit c.toNat else .char c.toNat :=
      if_neg hshort
    by_cases hnumber : c.toNat < 0x20 ∨ c = '\u2028' ∨ c = '\u2029'
    · refine .inr ⟨hitem.trans (if_pos hnumber), ?_⟩
      rcases hnumber with h | rfl | rfl
      · exact Nat.lt_trans h (by decide)
      · decide
      · decide
    · exact .inl ⟨hitem.trans (if_neg hnumber), Or.inl (Nat.le_of_not_lt fun h => hnumber (.inl h))⟩

theorem goString_plain (s : Text) : goString (plain s) = s := by
  induction s with
  | nil => rfl
  | cons c s ih =>
    have hcons : plain (c :: s) = plainItem c :: plain s := rfl
    rw [hcons]
    rcases plainItem_cases c with ⟨hitem, -⟩ | ⟨hitem, hlt⟩
    · rw [hitem, goString, Char.ofNat_toNat, ih]
    · have hhigh : Utf16.isHigh (UInt16.ofNat c.toNat) = false := by
        simp only [Utf16.isHigh, UInt16.toNat_ofNat', decide_eq_false_iff_not]
        omega
      rw [hitem, goString_unit hhigh, lone_eq hlt, Char.ofNat_toNat, ih]

theorem written_plain (s : Text) : Setup.Written (.str (plain s)) := by
  have hitem : ∀ c, (plainItem c).Printable ∧ AreChars (plainItem c).print := by
    intro c
    rcases plainItem_cases c with ⟨hitem, hprint⟩ | ⟨hitem, hlt⟩
    · rw [hitem]
      refine ⟨hprint, ?_⟩
      cases hshort : shortOf.lookup c.toNat with
      | some e =>
        have hescape : (Item.char c.toNat).print = [92, e] := by simp [Item.print, hshort]
        rw [hescape]
        exact areChars_cons (by decide) (areChars_one (short_lt hshort))
      | none =>
        have hself : (Item.char c.toNat).print = [c.toNat] := by simp [Item.print, hshort]
        rw [hself]
        intro n hn
        rw [List.mem_singleton.mp hn, Char.ofNat_toNat]
    · rw [hitem]
      exact ⟨Nat.lt_trans hlt (by decide), AreChars.ascii fun n => hex4_lt⟩
  constructor
  · intro i hi
    obtain ⟨c, -, rfl⟩ := List.mem_map.mp hi
    exact (hitem c).1
  · refine areChars_cons (by decide) (AreChars.append (fun n hn => ?_) (areChars_one (by decide)))
    obtain ⟨i, hi, hn⟩ := List.mem_flatMap.mp hn
    obtain ⟨c, -, rfl⟩ := List.mem_map.mp hi
    exact (hitem c).2 n hn

/-- What is one value is decoded whole, if it is not nested too deep. -/
theorem decodeJSON_parse {s : Text} {t : Tree} (h : parse (s.map Char.toNat) = some t) :
    decodeJSON s = (some t).filter fun t => nesting t ≤ maxNesting := by
  have hfirst : (if stops (s.drop s.length) then parse ((s.take s.length).map Char.toNat) else none) = some t := by
    rw [List.drop_length, List.take_length, h]
    rfl
  rw [decodeJSON, List.range_succ, List.reverse_append, List.reverse_singleton, List.singleton_append, List.findSome?_cons]
  simp only [hfirst]

/-- What is written reads back. -/
theorem decodeJSON_marshal {t : Tree} (h : Setup.Written t) (hn : nesting t ≤ maxNesting) : decodeJSON (marshal t) = some t := by
  have hcodes : (marshal t).map Char.toNat = t.print := by
    rw [marshal, List.map_map]
    exact (List.map_congr_left fun n hn => h.2 n hn).trans (List.map_id _)
  have hread := @parse_print t h.1 [] fun _ hc => absurd hc List.not_mem_nil
  rw [List.append_nil] at hread
  rw [decodeJSON_parse (hcodes ▸ hread), Option.filter_some, decide_eq_true hn, if_pos rfl]

/-! ## The document -/

theorem written_key (key : String) (v : Tree) : Setup.Written (.str (member key v).1) := written_plain _

theorem written_content (s : Text) : Setup.Written (contentTree s) := by
  refine written_arr (List.forall_mem_singleton.mpr (written_obj ?_))
  rw [List.forall_mem_cons, List.forall_mem_cons, List.forall_mem_singleton]
  exact ⟨⟨written_key _ _, written_obj nofun⟩, ⟨written_key _ _, written_plain s⟩,
    written_key _ _, written_plain _⟩

theorem written_block : ∀ b : Block, Setup.Written b.tree
  | .paragraph s => by
    refine written_obj ?_
    rw [List.forall_mem_cons, List.forall_mem_singleton]
    exact ⟨⟨written_key _ _, written_content s⟩, written_key _ _, written_plain _⟩
  | .check checked s => by
    have hbool : Setup.Written (.bool checked) := by
      cases checked with
      | false => exact ⟨trivial, AreChars.ascii (by decide)⟩
      | true => exact ⟨trivial, AreChars.ascii (by decide)⟩
    refine written_obj ?_
    rw [List.forall_mem_cons, List.forall_mem_cons, List.forall_mem_singleton]
    exact ⟨⟨written_key _ _, written_content s⟩,
      ⟨written_key _ _, written_obj (List.forall_mem_singleton.mpr ⟨written_key _ _, hbool⟩)⟩,
      written_key _ _, written_plain _⟩

theorem written_document (blocks : List Block) : Setup.Written (documentTree blocks) := by
  refine written_obj ?_
  rw [List.forall_mem_cons, List.forall_mem_singleton]
  refine ⟨⟨written_key _ _, written_arr ?_⟩, written_key _ _, written_plain _⟩
  split
  · refine List.forall_mem_singleton.mpr (written_obj ?_)
    rw [List.forall_mem_cons, List.forall_mem_singleton]
    exact ⟨⟨written_key _ _, written_plain _⟩, written_key _ _, written_plain _⟩
  · intro t ht
    obtain ⟨b, -, rfl⟩ := List.mem_map.mp ht
    exact written_block b

theorem nesting_block (b : Block) : nesting b.tree ≤ 4 := by
  cases b <;> simp [Block.tree, contentTree, textTree, member, nesting, nestingOfMembers, nestingOfValues]

theorem nesting_document (blocks : List Block) : nesting (documentTree blocks) ≤ maxNesting := by
  have hvalues : ∀ blocks : List Block, nestingOfValues (blocks.map Block.tree) ≤ 4 := by
    intro blocks
    induction blocks with
    | nil => exact Nat.zero_le _
    | cons b blocks ih => exact Nat.max_le.mpr ⟨nesting_block b, ih⟩
  have hblocks := hvalues blocks
  simp only [documentTree, textTree, member, nesting, nestingOfMembers, maxNesting]
  split
  · simp [nesting, nestingOfMembers, nestingOfValues]
  · omega

/-- The parts of a block that are read. -/
theorem get_paragraph (s : Text) : get (Block.paragraph s).tree "type" = some (textTree "paragraph".toList) ∧
    get (Block.paragraph s).tree "content" = some (contentTree s) ∧ get (Block.paragraph s).tree "props" = none ∧
    get (Block.paragraph s).tree "children" = none := by
  simp [get, Block.tree, member, goString_plain, Json.lastValue]

theorem get_check (checked : Bool) (s : Text) :
    get (Block.check checked s).tree "type" = some (textTree "checkListItem".toList) ∧
    get (Block.check checked s).tree "content" = some (contentTree s) ∧
    ((get (Block.check checked s).tree "props").bind fun p => get p "checked") = some (.bool checked) ∧
    get (Block.check checked s).tree "children" = none := by
  simp [get, Block.tree, member, goString_plain, Json.lastValue]

theorem inline_content (s : Text) : inline (contentTree s) = s := by
  simp [contentTree, inline, inlineItems, get, member, textTree, goString_plain, Json.lastValue, str]

/-! ## Reading the blocks -/

def Block.type : Block → Text
  | .paragraph _ => "paragraph".toList
  | .check _ _ => "checkListItem".toList

def Block.isCheck : Block → Bool
  | .paragraph _ => false
  | .check _ _ => true

def mark (checked : Bool) : Text := (if checked then "- [x] " else "- [ ] ").toList

/-- The lines that a block reads as. -/
def Block.lines : Block → List Text
  | .paragraph s => s.splitOn '\n'
  | .check checked s => [mark checked ++ s]

/-- A block that can have come of lines. -/
def Block.Good : Block → Prop
  | .paragraph s => ∀ line ∈ s.splitOn '\n', checkLine line = none ∧ blank line = false
  | .check _ s => '\n' ∉ s

theorem str_text (s : Text) : str (some (textTree s)) = s := goString_plain s

theorem indentRest_eq {s : Text} (h : '\n' ∉ s) : indentRest s = s := by
  unfold indentRest replaceLines
  induction s with
  | nil => rfl
  | cons c s ih =>
    rw [List.mem_cons, not_or] at h
    rw [List.flatMap_cons, if_neg (Ne.symm h.1), ih h.2, List.singleton_append]

theorem blockText_block (number : ℕ) {b : Block} (h : b.Good) : blockText int number b.tree = ['\n'].intercalate b.lines := by
  cases b with
  | paragraph s =>
    obtain ⟨htype, hcontent, hprops, -⟩ := get_paragraph s
    have hs : ['\n'].intercalate (Block.paragraph s).lines = s := List.intercalate_splitOn '\n'
    have htext : inlineOf (get (Block.paragraph s).tree "content") = s := by
      rw [hcontent, inlineOf, Option.map_some, inline_content, Option.getD_some]
    have hstr : str (get (Block.paragraph s).tree "type") = "paragraph".toList := by rw [htype, str_text]
    unfold blockText
    dsimp only
    rw [hs, htext, hstr, hprops, if_neg (by decide), if_neg (by decide), if_neg (by decide), if_neg (by decide),
      if_neg (by decide), if_neg (by decide), if_neg (by decide), if_neg fun h => absurd rfl h.2]
  | check checked s =>
    obtain ⟨htype, hcontent, hprops, -⟩ := get_check checked s
    have hs : ['\n'].intercalate (Block.check checked s).lines = mark checked ++ s := List.intercalate_singleton
    have htext : inlineOf (get (Block.check checked s).tree "content") = s := by
      rw [hcontent, inlineOf, Option.map_some, inline_content, Option.getD_some]
    have hstr : str (get (Block.check checked s).tree "type") = "checkListItem".toList := by rw [htype, str_text]
    have hindent : indentRest s = s := indentRest_eq h
    unfold blockText
    dsimp only
    rw [hs, htext, hstr, hprops, hindent, if_neg (by decide), if_neg (by decide), if_neg (by decide), if_pos rfl]
    cases checked <;> rfl

theorem blocksLoop_block (out : Text) (number : ℕ) (prev : Text) {b : Block} (h : b.Good) (blocks : List Tree) :
    blocksLoop int out number prev (b.tree :: blocks) =
      blocksLoop int (out ++ separator out prev b.type ++ ['\n'].intercalate b.lines) 0 b.type blocks := by
  have hobj : ∀ t members, t = Tree.obj members → get t "children" = none → str (get t "type") = b.type →
      blocksLoop int out number prev (t :: blocks) =
        blocksLoop int (out ++ separator out prev b.type ++ blockText int 0 t) 0 b.type blocks := by
    rintro t members rfl hchildren htype
    have hnumbered : b.type ≠ "numberedListItem".toList := by
      cases b with
      | paragraph => exact (by decide : "paragraph".toList ≠ "numberedListItem".toList)
      | check => exact (by decide : "checkListItem".toList ≠ "numberedListItem".toList)
    rw [blocksLoop]
    simp only [hchildren, htype, list, dite_true, if_neg hnumbered]
  rw [← blockText_block 0 h]
  cases b with
  | paragraph s =>
    obtain ⟨htype, -, -, hchildren⟩ := get_paragraph s
    exact hobj _ _ rfl hchildren (by rw [htype, str_text]; rfl)
  | check checked s =>
    obtain ⟨htype, -, -, hchildren⟩ := get_check checked s
    exact hobj _ _ rfl hchildren (by rw [htype, str_text]; rfl)

/-! ## Lines -/

theorem intercalate_append {sep : Text} : ∀ {ls ms : List Text}, ls ≠ [] → ms ≠ [] →
    sep.intercalate (ls ++ ms) = sep.intercalate ls ++ (sep ++ sep.intercalate ms)
  | [l], ms, _, hm => by
    rw [List.singleton_append, List.intercalate_cons_of_ne_nil hm, List.intercalate_singleton, List.append_assoc]
  | l :: l' :: ls, ms, _, hm => by
    have hrest := @intercalate_append sep (l' :: ls) ms (List.cons_ne_nil _ _) hm
    rw [List.cons_append, List.cons_append, List.intercalate_cons_cons, ← List.cons_append, hrest, List.intercalate_cons_cons]
    simp only [List.append_assoc]

theorem mem_intercalate {sep : Text} {c : Char} : ∀ {ls : List Text},
    c ∈ sep.intercalate ls → c ∈ sep ∨ ∃ l ∈ ls, c ∈ l
  | [], h => by cases h
  | [l], h => by
    rw [List.intercalate_singleton] at h
    exact .inr ⟨l, List.mem_singleton_self l, h⟩
  | l :: l' :: ls, h => by
    rw [List.intercalate_cons_cons, List.mem_append, List.mem_append] at h
    rcases h with (h | h) | h
    · exact .inr ⟨l, List.mem_cons_self, h⟩
    · exact .inl h
    · exact (mem_intercalate h).imp_right fun ⟨m, hm, hc⟩ => ⟨m, List.mem_cons_of_mem _ hm, hc⟩

theorem mem_intercalate_of_mem {sep l : Text} {c : Char} (hc : c ∈ l) : ∀ {ls : List Text}, l ∈ ls → c ∈ sep.intercalate ls
  | [m], h => by
    rw [List.intercalate_singleton]
    exact List.mem_singleton.mp h ▸ hc
  | m :: m' :: ls, h => by
    rw [List.intercalate_cons_cons, List.mem_append, List.mem_append]
    rcases List.mem_cons.mp h with rfl | h
    · exact .inl (.inl hc)
    · exact .inr (mem_intercalate_of_mem hc h)

/-- No line has a line break. -/
theorem not_mem_line {s line : Text} (h : line ∈ s.splitOn '\n') : '\n' ∉ line := by
  induction s generalizing line with
  | nil =>
    rw [List.splitOn_nil] at h
    rw [List.mem_singleton.mp h]
    exact List.not_mem_nil
  | cons c s ih =>
    rw [List.splitOn_cons_eq_if_modifyHead] at h
    split at h
    · rcases List.mem_cons.mp h with rfl | h
      · exact List.not_mem_nil
      · exact ih h
    · rename_i hc
      obtain ⟨l, ls, hl⟩ := List.exists_cons_of_ne_nil (List.splitOn_ne_nil '\n' s)
      rw [hl, List.modifyHead_cons] at h
      rcases List.mem_cons.mp h with rfl | h
      · rw [List.mem_cons, not_or]
        exact ⟨fun heq => hc (by rw [← heq]; rfl), ih (hl ▸ List.mem_cons_self)⟩
      · exact ih (hl ▸ List.mem_cons_of_mem _ h)

/-- What stands between two blocks. -/
def gap (a b : Block) : List Text := if a.isCheck ∧ b.isCheck then [] else [[]]

/-- The lines of the blocks after a block. -/
def linesAfter (a : Block) : List Block → List Text
  | [] => []
  | b :: blocks => gap a b ++ (b.lines ++ linesAfter b blocks)

theorem lines_ne_nil : ∀ b : Block, b.lines ≠ []
  | .paragraph _ => List.splitOn_ne_nil _ _
  | .check _ _ => List.cons_ne_nil _ _

theorem separator_eq {out : Text} (h : out ≠ []) (a b : Block) {ls : List Text} (hls : ls ≠ []) :
    separator out a.type b.type ++ ['\n'].intercalate ls = '\n' :: ['\n'].intercalate (gap a b ++ ls) := by
  have hitem : ∀ b : Block, isListItem b.type = b.isCheck := by
    intro b
    cases b with
    | paragraph => exact (by decide : isListItem "paragraph".toList = false)
    | check => exact (by decide : isListItem "checkListItem".toList = true)
  rw [separator, if_neg h, hitem, hitem, gap]
  by_cases hboth : b.isCheck = true ∧ a.isCheck = true
  · rw [if_pos hboth, if_pos hboth.symm]
    rfl
  · rw [if_neg hboth, if_neg fun h => hboth h.symm, intercalate_append (List.cons_ne_nil _ _) hls]
    rfl

/-- The loop writes the lines of the blocks. -/
theorem blocksLoop_eq : ∀ (blocks : List Block) {a : Block} {ls : List Text}, (∀ b ∈ blocks, b.Good) → ls ≠ [] →
    ['\n'].intercalate ls ≠ [] →
    blocksLoop int (['\n'].intercalate ls) 0 a.type (blocks.map Block.tree) = ['\n'].intercalate (ls ++ linesAfter a blocks)
  | [], a, ls, _, _, _ => by rw [List.map_nil, blocksLoop, linesAfter, List.append_nil]
  | b :: blocks, a, ls, hgood, hls, hout => by
    rw [List.forall_mem_cons] at hgood
    have hnew : gap a b ++ b.lines ≠ [] := fun h => lines_ne_nil b (List.append_eq_nil_iff.mp h).2
    have hnext : ['\n'].intercalate ls ++ separator (['\n'].intercalate ls) a.type b.type ++ ['\n'].intercalate b.lines =
        ['\n'].intercalate (ls ++ (gap a b ++ b.lines)) := by
      rw [List.append_assoc, separator_eq hout a b (lines_ne_nil b), intercalate_append hls hnew]
      rfl
    have hne : ['\n'].intercalate (ls ++ (gap a b ++ b.lines)) ≠ [] := by
      rw [intercalate_append hls hnew]
      exact fun h => hout (List.append_eq_nil_iff.mp h).1
    rw [List.map_cons, blocksLoop_block _ _ _ hgood.1, hnext,
      blocksLoop_eq blocks hgood.2 (fun h => hls (List.append_eq_nil_iff.mp h).1) hne, linesAfter]
    simp only [List.append_assoc]

/-! ## Splitting the lines again -/

theorem blocksOf_para (rest : List Text) : ∀ {ls : List Text} (para : List Text),
    (∀ l ∈ ls, checkLine l = none ∧ blank l = false) → blocksOf para (ls ++ rest) = blocksOf (para ++ ls) rest
  | [], para, _ => by rw [List.nil_append, List.append_nil]
  | l :: ls, para, h => by
    rw [List.forall_mem_cons] at h
    rw [List.cons_append, blocksOf, h.1.1]
    dsimp only
    rw [if_neg (by rw [h.1.2]; exact Bool.false_ne_true), blocksOf_para rest _ h.2, List.append_assoc, List.singleton_append]

theorem blocksOf_blank (para rest : List Text) : blocksOf para ([] :: rest) = flush para ++ blocksOf [] rest := rfl

/-- What follows a paragraph ends it. -/
theorem blocksOf_linesAfter {a : Block} (ha : a.isCheck = false) (para : List Text) :
    ∀ blocks : List Block, blocksOf para (linesAfter a blocks) = flush para ++ blocksOf [] (linesAfter a blocks)
  | [] => (List.append_nil _).symm
  | b :: blocks => by
    have hgap : gap a b = [[]] := if_neg fun h => absurd h.1 (by rw [ha]; exact Bool.false_ne_true)
    rw [linesAfter, hgap, List.singleton_append, blocksOf_blank, blocksOf_blank]
    rfl

theorem checkLine_mark (checked : Bool) (s : Text) : checkLine (mark checked ++ s) = some (if checked then 'x' else ' ', s) := by
  cases checked <;> rfl

theorem blocksOf_lines {b : Block} (h : b.Good) (blocks : List Block) :
    blocksOf [] (b.lines ++ linesAfter b blocks) = b :: blocksOf [] (linesAfter b blocks) := by
  cases b with
  | paragraph s =>
    have hflush : flush (s.splitOn '\n') = [.paragraph s] := by
      rw [flush, if_neg (List.splitOn_ne_nil _ _), List.intercalate_splitOn]
    rw [Block.lines, blocksOf_para _ [] h, List.nil_append, blocksOf_linesAfter rfl, hflush]
    rfl
  | check checked s =>
    rw [Block.lines, List.singleton_append, blocksOf, checkLine_mark]
    cases checked <;> rfl

/-- Blocks that come of lines are made of the lines that they read as. -/
theorem blocksOf_linesFrom {a : Block} : ∀ {blocks : List Block}, (∀ b ∈ blocks, b.Good) → blocksOf [] (linesAfter a blocks) = blocks
  | [], _ => rfl
  | b :: blocks, h => by
    rw [List.forall_mem_cons] at h
    have hgap : blocksOf [] (linesAfter a (b :: blocks)) = blocksOf [] (b.lines ++ linesAfter b blocks) := by
      rw [linesAfter, gap]
      split
      · rfl
      · exact blocksOf_blank [] _
    rw [hgap, blocksOf_lines h.1, blocksOf_linesFrom h.2]

/-! ## Blocks of lines -/

def Block.text : Block → Text
  | .paragraph s => s
  | .check _ s => s

theorem mem_of_checkLine {line text : Text} {m : Char} (h : checkLine line = some (m, text)) : ∀ c ∈ text, c ∈ line := by
  unfold checkLine at h
  split at h
  · rename_i bullet mark rest hline
    split at h
    · obtain ⟨-, rfl⟩ := Prod.mk.inj (Option.some.inj h)
      intro c hc
      have hrest : c ∈ rest := by
        split at hc
        · exact List.mem_of_mem_tail hc
        · exact hc
      have hdropped : c ∈ line.dropWhile isBlankChar := by
        rw [hline]
        exact List.mem_append_right [bullet, ' ', '[', mark, ']'] hrest
      exact (List.dropWhile_suffix _).subset hdropped
    · cases h
  · cases h

/-- A line between line breaks. -/
def Plain (line : Text) : Prop := '\n' ∉ line ∧ '\r' ∉ line

theorem flush_good {para : List Text} (h : ∀ l ∈ para, Plain l ∧ checkLine l = none ∧ blank l = false) :
    ∀ b ∈ flush para, b.Good ∧ '\r' ∉ b.text := by
  unfold flush
  split
  · exact fun _ hb => absurd hb List.not_mem_nil
  · rename_i hne
    intro b hb
    obtain rfl := List.mem_singleton.mp hb
    refine ⟨fun l hl => ?_, fun hr => ?_⟩
    · rw [List.splitOn_intercalate '\n' (fun l hl => (h l hl).1.1) hne] at hl
      exact (h l hl).2
    · rcases mem_intercalate hr with hr | ⟨l, hl, hr⟩
      · exact absurd (List.mem_singleton.mp hr) (by decide)
      · exact (h l hl).1.2 hr

theorem blocksOf_good : ∀ {lines para : List Text}, (∀ l ∈ lines, Plain l) →
    (∀ l ∈ para, Plain l ∧ checkLine l = none ∧ blank l = false) → ∀ b ∈ blocksOf para lines, b.Good ∧ '\r' ∉ b.text
  | [], para, _, hpara => flush_good hpara
  | line :: lines, para, hlines, hpara => by
    rw [List.forall_mem_cons] at hlines
    have hrest := @blocksOf_good lines [] hlines.2 fun _ hl => absurd hl List.not_mem_nil
    intro b hb
    cases hcheck : checkLine line with
    | some found =>
      obtain ⟨m, text⟩ := found
      rw [blocksOf, hcheck] at hb
      rcases List.mem_append.mp hb with hb | hb
      · exact flush_good hpara b hb
      · rcases List.mem_cons.mp hb with rfl | hb
        · exact ⟨fun h => hlines.1.1 (mem_of_checkLine hcheck _ h), fun h => hlines.1.2 (mem_of_checkLine hcheck _ h)⟩
        · exact hrest b hb
    | none =>
      rw [blocksOf, hcheck] at hb
      dsimp only at hb
      split at hb
      · rcases List.mem_append.mp hb with hb | hb
        · exact flush_good hpara b hb
        · exact hrest b hb
      · rename_i hblank
        refine blocksOf_good hlines.2 (fun l hl => ?_) b hb
        rcases List.mem_append.mp hl with hl | hl
        · exact hpara l hl
        · rw [List.mem_singleton.mp hl]
          exact ⟨hlines.1, hcheck, Bool.not_eq_true _ ▸ hblank⟩

theorem markdownBlocks_good {md : Text} (h : '\r' ∉ replaceCRLF md) : ∀ b ∈ markdownBlocks md, b.Good ∧ '\r' ∉ b.text := by
  refine blocksOf_good (fun l hl => ⟨not_mem_line hl, fun hr => h ?_⟩) fun _ hl => absurd hl List.not_mem_nil
  have hjoin := @List.intercalate_splitOn Char (replaceCRLF md) _ _ '\n'
  rw [← hjoin]
  exact mem_intercalate_of_mem hr hl

/-! ## The round trip -/

theorem intercalate_lines_ne_nil {b : Block} (h : b.Good) : ['\n'].intercalate b.lines ≠ [] := by
  cases b with
  | paragraph s =>
    have hs : ['\n'].intercalate (Block.paragraph s).lines = s := List.intercalate_splitOn '\n'
    rw [hs]
    rintro rfl
    exact absurd (h [] (by rw [List.splitOn_nil]; exact List.mem_singleton_self _)).2 (by decide)
  | check checked s =>
    have hs : ['\n'].intercalate (Block.check checked s).lines = mark checked ++ s := List.intercalate_singleton
    rw [hs]
    cases checked <;> exact List.cons_ne_nil _ _

/-- What a new page reads as. -/
def shown : List Block → Text
  | [] => []
  | b :: blocks => ['\n'].intercalate (b.lines ++ linesAfter b blocks)

theorem pageMarkdown_newPageBody {blocks : List Block} (h : ∀ b ∈ blocks, b.Good) :
    pageMarkdown int canvas other (newPageBody blocks) = shown blocks := by
  have hformat : get (documentTree blocks) "format" = some (textTree blocknoteFormat.toList) := by
    simp [get, documentTree, member, goString_plain, Json.lastValue]
  have hcanvas : blocknoteFormat.toList ≠ canvasFormat.toList := by decide
  rw [pageMarkdown, newPageBody, decodeJSON_marshal (written_document blocks) (nesting_document blocks)]
  dsimp only
  rw [hformat, str_text, if_neg hcanvas, if_pos rfl]
  cases blocks with
  | nil =>
    have hdocument : get (documentTree []) "document" =
        some (.arr [.obj [member "content" (textTree []), member "type" (textTree "paragraph".toList)]]) := by
      simp [get, documentTree, member, goString_plain, Json.lastValue]
    have hread : blocksMarkdown int [.obj [member "content" (textTree []), member "type" (textTree "paragraph".toList)]] = [] := by
      simp [blocksMarkdown, blocksLoop, get, member, goString_plain, Json.lastValue, str, textTree, list, separator, blockText,
        inlineOf, inline]
    rw [hdocument]
    exact hread
  | cons b blocks =>
    have hdocument : get (documentTree (b :: blocks)) "document" = some (.arr (b.tree :: blocks.map Block.tree)) := by
      simp [get, documentTree, member, goString_plain, Json.lastValue]
    rw [List.forall_mem_cons] at h
    rw [hdocument]
    dsimp only
    rw [blocksMarkdown, blocksLoop_block _ _ _ h.1]
    exact blocksLoop_eq blocks h.2 (lines_ne_nil b) (intercalate_lines_ne_nil h.1)

theorem replaceCRLF_eq : ∀ {s : Text}, '\r' ∉ s → replaceCRLF s = s
  | [], _ => rfl
  | c :: s, h => by
    rw [List.mem_cons, not_or] at h
    have hstep : replaceCRLF (c :: s) = c :: replaceCRLF s := by
      rw [replaceCRLF]
      exact fun s' hc _ => h.1 hc.symm
    rw [hstep, replaceCRLF_eq h.2]

theorem mem_linesAfter {l : Text} : ∀ {blocks : List Block} {a : Block}, l ∈ linesAfter a blocks → l = [] ∨ ∃ b ∈ blocks, l ∈ b.lines
  | [], _, h => absurd h List.not_mem_nil
  | b :: blocks, a, h => by
    rcases List.mem_append.mp h with h | h
    · unfold gap at h
      split at h
      · exact absurd h List.not_mem_nil
      · exact .inl (List.mem_singleton.mp h)
    · rcases List.mem_append.mp h with h | h
      · exact .inr ⟨b, List.mem_cons_self, h⟩
      · exact (mem_linesAfter h).imp_right fun ⟨b', hb, hl⟩ => ⟨b', List.mem_cons_of_mem _ hb, hl⟩

theorem lines_plain {b : Block} (h : b.Good ∧ '\r' ∉ b.text) : ∀ l ∈ b.lines, Plain l := by
  cases b with
  | paragraph s =>
    intro l hl
    have hjoin := @List.intercalate_splitOn Char s _ _ '\n'
    exact ⟨not_mem_line hl, fun hr => h.2 (by rw [Block.text, ← hjoin]; exact mem_intercalate_of_mem hr hl)⟩
  | check checked s =>
    intro l hl
    have hmark : ∀ checked, Plain (mark checked) := by
      intro checked
      cases checked
      · exact ⟨by decide, by decide⟩
      · exact ⟨by decide, by decide⟩
    rw [List.mem_singleton.mp hl]
    exact ⟨fun hn => (List.mem_append.mp hn).elim (hmark checked).1 h.1, fun hr => (List.mem_append.mp hr).elim (hmark checked).2 h.2⟩

theorem markdownBlocks_shown {blocks : List Block} (h : ∀ b ∈ blocks, b.Good ∧ '\r' ∉ b.text) : markdownBlocks (shown blocks) = blocks := by
  cases blocks with
  | nil => rfl
  | cons b blocks =>
    have hgood : ∀ b' ∈ b :: blocks, b'.Good := fun b' hb => (h b' hb).1
    have hplain : ∀ l ∈ b.lines ++ linesAfter b blocks, Plain l := by
      intro l hl
      rcases List.mem_append.mp hl with hl | hl
      · exact lines_plain (h b List.mem_cons_self) l hl
      · rcases mem_linesAfter hl with rfl | ⟨b', hb, hl⟩
        · exact ⟨List.not_mem_nil, List.not_mem_nil⟩
        · exact lines_plain (h b' (List.mem_cons_of_mem _ hb)) l hl
    have hne : b.lines ++ linesAfter b blocks ≠ [] := fun h => lines_ne_nil b (List.append_eq_nil_iff.mp h).1
    have hr : '\r' ∉ shown (b :: blocks) := by
      intro hr
      rcases mem_intercalate hr with hr | ⟨l, hl, hr⟩
      · exact absurd (List.mem_singleton.mp hr) (by decide)
      · exact (hplain l hl).2 hr
    rw [markdownBlocks, replaceCRLF_eq hr, shown, List.splitOn_intercalate '\n' (fun l hl => (hplain l hl).1) hne,
      blocksOf_lines (hgood b List.mem_cons_self), blocksOf_linesFrom fun b' hb => hgood b' (List.mem_cons_of_mem _ hb)]

/-- Markdown that is written as a new page reads back as the same blocks, whatever canvases and numbers read as, and what was read
is written as the same page again. -/
theorem markdown_round_trip (int : List ℕ → ℤ) (canvas other : Tree → Text) (md : Text) (h : '\r' ∉ replaceCRLF md) :
    markdownBlocks (pageMarkdown int canvas other (newPageBody (markdownBlocks md))) = markdownBlocks md ∧
      newPageBody (markdownBlocks (pageMarkdown int canvas other (newPageBody (markdownBlocks md)))) =
        newPageBody (markdownBlocks md) := by
  have hgood := markdownBlocks_good h
  have hread : markdownBlocks (pageMarkdown int canvas other (newPageBody (markdownBlocks md))) = markdownBlocks md := by
    rw [pageMarkdown_newPageBody fun b hb => (hgood b hb).1, markdownBlocks_shown hgood]
  exact ⟨hread, congrArg newPageBody hread⟩

/-- A paragraph of two lines, one of them indented, and a checked item. -/
theorem markdown_round_trip_note :
    markdownBlocks (pageMarkdown (fun _ => 0) (fun _ => []) (fun _ => [])
        (newPageBody (markdownBlocks "Plan\n  for today\n* [X] buy milk\n".toList))) =
      [.paragraph "Plan\n  for today".toList, .check true "buy milk".toList] := by
  have hmade : markdownBlocks "Plan\n  for today\n* [X] buy milk\n".toList =
      [.paragraph "Plan\n  for today".toList, .check true "buy milk".toList] := by decide +kernel
  rw [← hmade]
  exact (markdown_round_trip (fun _ => 0) (fun _ => []) (fun _ => []) _ (by decide +kernel)).1

end KyNotes.Bridge.Markdown
