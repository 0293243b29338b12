import KyNotes.Lib.Words
import KyNotes.Web.TaskDates

/-!
# Recurring tasks

The tokens of a task and `recurrenceEdits` of `web/src/taskDates.ts`: for a checked item with a repeat token, one edit that
cuts the token out of the item and adds an unchecked copy with the next dates. `applyEdits` is what the editor does with the
edits: it replaces the content of the block with the id and inserts the copy after it.

* `find_repeat`: the token that is cut is the first word that is a rule;
* `textOf_rewrite`, `texts_cut`: the content without it has the same words but that one;
* `visited_applyEdits`, `foldl_update_own`: the done items afterwards are those from before, each with its own edit;
* `second_run_iff`: so a second run finds nothing exactly where no done item has two such words.
-/

namespace KyNotes.Web

/-! ## Tokens -/

inductive TokenKey where
  | due
  | rule
  | remind
  | push
  deriving DecidableEq, Repr

def TokenKey.name : TokenKey → JsString
  | .due => text "due"
  | .rule => text "repeat"
  | .remind => text "remind"
  | .push => text "push"

structure Token where
  key : TokenKey
  value : JsString
  start : ℕ
  stop : ℕ
  deriving DecidableEq, Repr

/-- `/^(due|repeat|remind|push):(\S+)$/`, for a word. -/
def matchWord (word : JsString) : Option (TokenKey × JsString) :=
  [TokenKey.due, .rule, .remind, .push].findSome? fun key =>
    match (key.name ++ [58]).isPrefixOf? word with
    | none => none
    | some value => if value = [] then none else some (key, value)

/-- `/^(\d{4}-\d{2}-\d{2})T([01]\d|2[0-3]):[0-5]\d$/` and the date of it. -/
def validRemind (value : JsString) : Bool :=
  match value.drop 10 with
  | [t, h₁, h₂, c, m₁, m₂] =>
    validDate (value.take 10) && t == 84 && c == 58 &&
      (((h₁ == 48 || h₁ == 49) && isDigit h₂) || (h₁ == 50 && 48 ≤ h₂ && h₂ ≤ 51)) && 48 ≤ m₁ && m₁ ≤ 53 && isDigit m₂
  | _ => false

def validToken (key : TokenKey) (value : JsString) : Bool :=
  match key with
  | .due => validDate value
  | .rule => (parseRepeat value).isSome
  | .push => value == text "yes"
  | .remind => validRemind value

/-- One word of the loop: the first valid token of each key. -/
def addToken (found : List Token) (word : ℕ × JsString) : List Token :=
  match matchWord word.2 with
  | none => found
  | some (key, value) =>
    if found.any (·.key == key) then found
    else if validToken key value then found ++ [⟨key, value, word.1, word.1 + word.2.length⟩]
    else found

def findTokens (s : JsString) : List Token := (Words.words isSpace s).foldl addToken []

/-- `TaskDates` without its text. -/
structure TaskDates where
  due : Option JsString := none
  rule : Option Repeat := none
  remind : Option JsString := none
  push : Bool := false

def parseTaskDates (raw : JsString) : TaskDates :=
  let task := (findTokens raw).reverse.foldl (fun (task : TaskDates) token =>
    match token.key with
    | .rule => { task with rule := parseRepeat token.value }
    | .push => { task with push := true }
    | .due => { task with due := some token.value }
    | .remind => { task with remind := some token.value }) {}
  -- push:yes means nothing without a reminder time
  if task.remind.isNone then { task with push := false } else task

/-- The dates of the next occurrence. -/
structure NextDates where
  due : Option JsString := none
  remind : Option JsString := none

def nextOccurrence (task : TaskDates) (today : JsString) : NextDates :=
  match task.rule with
  | none => {}
  | some rule =>
    { due := some (addRepeat (task.due.getD today) rule)
      remind := task.remind.map fun s => addRepeat (s.take 10) rule ++ s.drop 10 }

/-! ## Content -/

section Content

variable {ρ : Type}

/-- An inline node: its text, when that is a string, and the rest of it. -/
structure InlineNode (ρ : Type) where
  text : Option JsString
  rest : ρ

/-- A range of the joined text with what comes in its place. -/
structure RangeEdit where
  start : ℕ
  stop : ℕ
  text : JsString

/-- What is inserted at a place. -/
def insertedAt (edits : List RangeEdit) (i : ℕ) : JsString := (edits.filter (·.start = i)).flatMap (·.text)

/-- The characters from place `i` on, with the edits made. -/
def rewriteChars (edits : List RangeEdit) : ℕ → JsString → JsString
  | _, [] => []
  | i, c :: s =>
    insertedAt edits i ++
      ((if edits.any (fun e => e.start ≤ i && i < e.stop) then [] else [c]) ++ rewriteChars edits (i + 1) s)

/-- The nodes from place `offset` on; the last one with a text takes what is inserted at the end. -/
def rewriteNodes (edits : List RangeEdit) : ℕ → List (InlineNode ρ) → List (InlineNode ρ)
  | _, [] => []
  | offset, node :: nodes =>
    match node.text with
    | none => node :: rewriteNodes edits offset nodes
    | some s =>
      let atEnd := if nodes.any (·.text.isSome) then [] else insertedAt edits (offset + s.length)
      { node with text := some (rewriteChars edits offset s ++ atEnd) } :: rewriteNodes edits (offset + s.length) nodes

/-- `rewrite`: nodes whose text is empty go. -/
def rewrite (content : List (InlineNode ρ)) (edits : List RangeEdit) : List (InlineNode ρ) :=
  (rewriteNodes edits 0 content).filter fun node => node.text != some []

def textOf (content : List (InlineNode ρ)) : JsString := content.flatMap fun node => node.text.getD []

/-- The token with the space before it, or after it at the start. -/
def cut (s : JsString) (token : Token) : RangeEdit :=
  let before := if (s.take token.start).getLast?.any isSpace then 1 else 0
  let after := if before = 1 ∨ ¬(s.drop token.stop).head?.any isSpace then 0 else 1
  ⟨token.start - before, token.stop + after, []⟩

/-! ## Blocks -/

/-- What is read of a block: `checked` is `props?.checked === true`, and there is content when it is an array. -/
structure Item (ρ : Type) where
  id : JsString
  type : JsString
  checked : Bool
  content : Option (List (InlineNode ρ))

inductive TaskBlock (ρ : Type) where
  | mk (item : Item ρ) (children : List (TaskBlock ρ))

def MAX_DEPTH : ℕ := 100

/-- The edit of a block: its new content, and the content of the copy. -/
structure RecurrenceEdit (ρ : Type) where
  id : JsString
  content : List (InlineNode ρ)
  next : List (InlineNode ρ)

/-- A checked item of a checklist, with an id and content. -/
def Item.due (it : Item ρ) : Option (List (InlineNode ρ)) :=
  if it.type = text "checkListItem" ∧ it.checked = true ∧ it.id ≠ [] then it.content else none

/-- The dates of the copy in the place of the tokens. -/
def advancedEdits (s : JsString) (tokens : List Token) (next : NextDates) : List RangeEdit :=
  let advanced := tokens.flatMap fun token =>
    match token.key with
    | .rule | .push => []
    | .due => [⟨token.start, token.stop, text "due:" ++ next.due.getD (text "undefined")⟩]
    | .remind => [⟨token.start, token.stop, text "remind:" ++ next.remind.getD (text "undefined")⟩]
  if tokens.any (·.key == .due) then advanced
  else
    let gap := if s.getLast?.any (fun c => !isSpace c) then [32] else []
    advanced ++ [⟨s.length, s.length, gap ++ (text "due:" ++ next.due.getD (text "undefined"))⟩]

/-- What `visit` pushes for one block. -/
def itemEdit (today : JsString) (it : Item ρ) : Option (RecurrenceEdit ρ) :=
  match it.due with
  | none => none
  | some content =>
    let s := textOf content
    let tokens := findTokens s
    match tokens.find? (·.key == .rule) with
    | none => none
    | some rule =>
      let next := nextOccurrence (parseTaskDates s) today
      some ⟨it.id, rewrite content [cut s rule], rewrite content (advancedEdits s tokens next)⟩

mutual

/-- The blocks that `visit` comes to, in its order. -/
def TaskBlock.visited (depth : ℕ) : TaskBlock ρ → List (Item ρ)
  | .mk item children => if depth > MAX_DEPTH then [] else item :: visitedAll (depth + 1) children

def visitedAll (depth : ℕ) : List (TaskBlock ρ) → List (Item ρ)
  | [] => []
  | block :: blocks => block.visited depth ++ visitedAll depth blocks

end

def recurrenceEdits (blocks : List (TaskBlock ρ)) (today : JsString) : List (RecurrenceEdit ρ) :=
  (visitedAll 0 blocks).filterMap (itemEdit today)

mutual

/-- `updateBlock` and `insertBlocks` on one block and what is under it. -/
def TaskBlock.applyEdit (e : RecurrenceEdit ρ) (copy : Item ρ) : TaskBlock ρ → List (TaskBlock ρ)
  | .mk item children =>
    if item.id = e.id then [.mk { item with content := some e.content } (applyEdit e copy children), .mk copy []]
    else [.mk item (applyEdit e copy children)]

def applyEdit (e : RecurrenceEdit ρ) (copy : Item ρ) : List (TaskBlock ρ) → List (TaskBlock ρ)
  | [] => []
  | block :: blocks => block.applyEdit e copy ++ applyEdit e copy blocks

end

/-- The unchecked copy, under the id that the editor gives it. -/
def copyOf (id : JsString) (e : RecurrenceEdit ρ) : Item ρ :=
  { id, type := text "checkListItem", checked := false, content := some e.next }

/-- All edits, one after the other. -/
def applyEdits (newId : List (TaskBlock ρ) → JsString) (blocks : List (TaskBlock ρ)) (edits : List (RecurrenceEdit ρ)) :
    List (TaskBlock ρ) :=
  edits.foldl (fun blocks e => applyEdit e (copyOf (newId blocks) e) blocks) blocks

end Content

/-! ## The token that is cut -/

/-- A word that is a repeat token with a rule. -/
def ruleWord (word : JsString) : Bool :=
  match matchWord word with
  | some (.rule, value) => (parseRepeat value).isSome
  | _ => false

/-- How many of them a text has. -/
def ruleWords (s : JsString) : ℕ := (Words.texts isSpace s).countP ruleWord

/-- The place of the rule token. -/
def ruleSpan (found : List Token) : Option (ℕ × ℕ) :=
  (found.find? (·.key == .rule)).map fun token => (token.start, token.stop)

theorem ruleSpan_concat (found : List Token) (token : Token) :
    ruleSpan (found ++ [token]) =
      (ruleSpan found).or (if token.key = .rule then some (token.start, token.stop) else none) := by
  unfold ruleSpan
  rw [List.find?_append, Option.map_or]
  by_cases hk : token.key = .rule
  · simp [hk]
  · simp [hk]

/-- One word: it becomes the rule token when there is none yet. -/
theorem ruleSpan_addToken (found : List Token) (word : ℕ × JsString) :
    ruleSpan (addToken found word) =
      (ruleSpan found).or (if ruleWord word.2 then some (word.1, word.1 + word.2.length) else none) := by
  unfold addToken ruleWord
  cases hm : matchWord word.2 with
  | none => simp
  | some m =>
    obtain ⟨key, value⟩ := m
    by_cases hkey : key = .rule
    · subst hkey
      by_cases hany : found.any (·.key == .rule) = true
      · obtain ⟨token, ht⟩ := Option.isSome_iff_exists.mp (List.find?_isSome.mpr (List.any_eq_true.mp hany))
        have hspan : ruleSpan found = some (token.start, token.stop) := by rw [ruleSpan, ht]; rfl
        simp [hany, hspan]
      · dsimp only
        rw [if_neg hany]
        by_cases hv : (parseRepeat value).isSome = true
        · simp only [validToken, hv, if_true]
          rw [ruleSpan_concat]
          rfl
        · simp [validToken, hv]
    · have hword : (match (some (key, value) : Option (TokenKey × JsString)) with
          | some (.rule, value) => (parseRepeat value).isSome
          | _ => false) = false := by
        cases key <;> first | rfl | exact absurd rfl hkey
      rw [hword]
      dsimp only
      split
      · simp
      · split
        · rw [ruleSpan_concat, if_neg hkey]
          simp
        · simp

/-- The token that is cut is the first word that is a rule. -/
theorem find_repeat (s : JsString) :
    ruleSpan (findTokens s) =
      ((Words.words isSpace s).find? (ruleWord ·.2)).map fun word => (word.1, word.1 + word.2.length) := by
  have hrun : ∀ (ws : List (ℕ × JsString)) (found : List Token), ruleSpan (ws.foldl addToken found) =
      (ruleSpan found).or ((ws.find? (ruleWord ·.2)).map fun word => (word.1, word.1 + word.2.length)) := by
    intro ws
    induction ws with
    | nil => intro found; simp
    | cons word ws ih =>
      intro found
      rw [List.foldl_cons, ih, ruleSpan_addToken, Option.or_assoc, List.find?_cons]
      congr 1
      cases ruleWord word.2 <;> simp
  exact hrun _ []

theorem ruleSpan_eq_none {s : JsString} : ruleSpan (findTokens s) = none ↔ ruleWords s = 0 := by
  rw [find_repeat, Option.map_eq_none_iff, List.find?_eq_none, ruleWords, List.countP_eq_zero]
  constructor
  · intro h w hw
    obtain ⟨word, hmem, rfl⟩ := List.mem_map.mp hw
    exact h word hmem
  · exact fun h word hmem => h word.2 (List.mem_map_of_mem hmem)

/-! ## The content without it -/

section Cut

variable {ρ : Type}

theorem rewriteChars_append (edits : List RangeEdit) (t : JsString) : ∀ (i : ℕ) (s : JsString),
    rewriteChars edits i (s ++ t) = rewriteChars edits i s ++ rewriteChars edits (i + s.length) t
  | i, [] => rfl
  | i, c :: s => by
    have hlen : i + (c :: s).length = i + 1 + s.length := by rw [List.length_cons]; omega
    rw [List.cons_append, rewriteChars, rewriteChars, rewriteChars_append edits t (i + 1) s, hlen]
    simp only [List.append_assoc]

variable {e : RangeEdit}

theorem insertedAt_empty (he : e.text = []) (i : ℕ) : insertedAt [e] i = [] := by
  unfold insertedAt
  by_cases h : e.start = i
  · simp [h, he]
  · simp [h]

/-- Outside of the range. -/
theorem rewriteChars_outside (he : e.text = []) : ∀ (i : ℕ) (s : JsString), i + s.length ≤ e.start ∨ e.stop ≤ i →
    rewriteChars [e] i s = s
  | _, [], _ => rfl
  | i, c :: s, h => by
    rw [List.length_cons] at h
    rw [rewriteChars, insertedAt_empty he, rewriteChars_outside he (i + 1) s (by omega), if_neg]
    · rfl
    · simp
      omega

/-- Inside of it. -/
theorem rewriteChars_inside (he : e.text = []) : ∀ (i : ℕ) (s : JsString), e.start ≤ i → i + s.length ≤ e.stop →
    rewriteChars [e] i s = []
  | _, [], _, _ => rfl
  | i, c :: s, hi, hs => by
    rw [List.length_cons] at hs
    rw [rewriteChars, insertedAt_empty he, rewriteChars_inside he (i + 1) s (by omega) (by omega), if_pos]
    · rfl
    · simp
      omega

theorem rewriteChars_cut (he : e.text = []) {a m b : JsString} (ha : e.start = a.length)
    (hm : e.stop = a.length + m.length) : rewriteChars [e] 0 (a ++ m ++ b) = a ++ b := by
  rw [rewriteChars_append, rewriteChars_append, rewriteChars_outside he 0 a (by omega),
    rewriteChars_inside he _ m (by omega) (by omega), rewriteChars_outside he _ b (by rw [List.length_append]; omega),
    List.append_nil]

theorem textOf_cons (node : InlineNode ρ) (nodes : List (InlineNode ρ)) :
    textOf (node :: nodes) = node.text.getD [] ++ textOf nodes := List.flatMap_cons

/-- Node by node it is the same as over the whole text. -/
theorem textOf_rewriteNodes (he : e.text = []) : ∀ (offset : ℕ) (nodes : List (InlineNode ρ)),
    textOf (rewriteNodes [e] offset nodes) = rewriteChars [e] offset (textOf nodes)
  | _, [] => rfl
  | offset, node :: nodes => by
    rw [rewriteNodes, textOf_cons]
    cases hs : node.text with
    | none => rw [textOf_cons, hs, textOf_rewriteNodes he offset nodes]; rfl
    | some s =>
      rw [textOf_cons, textOf_rewriteNodes he _ nodes, Option.getD_some, rewriteChars_append]
      simp [insertedAt_empty he]

/-- Empty nodes do not count. -/
theorem textOf_filter (nodes : List (InlineNode ρ)) : textOf (nodes.filter fun node => node.text != some []) = textOf nodes := by
  induction nodes with
  | nil => rfl
  | cons node nodes ih =>
    rw [List.filter_cons, textOf_cons]
    split
    · rw [textOf_cons, ih]
    · next h =>
      have hempty : node.text = some [] := by simpa using h
      rw [ih, hempty]
      rfl

theorem textOf_rewrite (he : e.text = []) (content : List (InlineNode ρ)) :
    textOf (rewrite content [e]) = rewriteChars [e] 0 (textOf content) :=
  (textOf_filter _).trans (textOf_rewriteNodes he 0 content)

theorem cut_eq {a w b : JsString} {token : Token} (hstart : token.start = a.length)
    (hstop : token.stop = a.length + w.length) :
    cut (a ++ w ++ b) token =
      ⟨a.length - (if a.getLast?.any isSpace then 1 else 0),
        a.length + w.length + (if a.getLast?.any isSpace ∨ ¬b.head?.any isSpace then 0 else 1), []⟩ := by
  have hbefore : (a ++ w ++ b).take token.start = a := by
    rw [hstart, List.append_assoc]
    exact List.take_left
  have hafter : (a ++ w ++ b).drop token.stop = b := by
    rw [hstop, ← List.length_append]
    exact List.drop_left
  unfold cut
  rw [hbefore, hafter, hstart, hstop]
  cases a.getLast?.any isSpace <;> simp

/-- The words around the token stay as they are. -/
theorem texts_cut {a w b : JsString} {token : Token} (ha : Words.EndsWord isSpace a.reverse)
    (hb : Words.EndsWord isSpace b) (hstart : token.start = a.length) (hstop : token.stop = a.length + w.length)
    {content : List (InlineNode ρ)} (hs : textOf content = a ++ w ++ b) :
    Words.texts isSpace (textOf (rewrite content [cut (textOf content) token])) =
      Words.texts isSpace a ++ Words.texts isSpace b := by
  rw [hs, cut_eq hstart hstop, textOf_rewrite rfl, hs]
  rcases List.eq_nil_or_concat' a with rfl | ⟨a, c, rfl⟩
  · cases b with
    | nil =>
      rw [rewriteChars_cut (a := []) rfl (by simp) (by simp)]
      rfl
    | cons d b =>
      -- at the start the space after it goes
      have hd := hb d rfl
      have hsplit : [] ++ w ++ d :: b = [] ++ (w ++ [d]) ++ b := by simp
      rw [hsplit, rewriteChars_cut rfl (by simp) (by simp [hd])]
      exact (Words.texts_cons hd b).symm
  · have hc : isSpace c = true := ha c (by rw [List.reverse_append]; rfl)
    have hsplit : a ++ [c] ++ w ++ b = a ++ (c :: w) ++ b := by simp
    rw [hsplit, rewriteChars_cut rfl (by simp [hc]) (by simp [hc]; omega), Words.texts_append_left hb,
      Words.texts_concat hc]

/-- There is one rule less in it. -/
theorem ruleWords_cut {content : List (InlineNode ρ)} {token : Token}
    (ht : (findTokens (textOf content)).find? (·.key == .rule) = some token) :
    ruleWords (textOf content) = ruleWords (textOf (rewrite content [cut (textOf content) token])) + 1 := by
  have hspan : ruleSpan (findTokens (textOf content)) = some (token.start, token.stop) := by rw [ruleSpan, ht]; rfl
  rw [find_repeat] at hspan
  obtain ⟨⟨start, w⟩, hfind, hword⟩ := Option.map_eq_some_iff.mp hspan
  obtain ⟨hstart, hstop⟩ := Prod.mk.inj hword
  have hrule : ruleWord (start, w).2 = true := List.find?_some (p := fun word : ℕ × JsString => ruleWord word.2) hfind
  obtain ⟨a, b, hs, rfl, hne, hsep, ha, hb⟩ := Words.mem_scan le_rfl (List.mem_of_find?_eq_some hfind)
  rw [Nat.zero_add] at hstart hstop
  unfold ruleWords
  rw [texts_cut ha hb hstart.symm hstop.symm hs, hs, Words.texts_around ha hne hsep hb, List.countP_append,
    List.countP_append, List.countP_cons_of_pos hrule]
  omega

/-! ## One item -/

/-- No edit: the item is not done, or has no rule. -/
theorem itemEdit_eq_none {today : JsString} {it : Item ρ} :
    itemEdit today it = none ↔ ∀ content ∈ it.due, ruleWords (textOf content) = 0 := by
  unfold itemEdit
  cases hdue : it.due with
  | none => simp
  | some content =>
    have hnone : (∀ c ∈ some content, ruleWords (textOf c) = 0) ↔ ruleSpan (findTokens (textOf content)) = none := by
      rw [ruleSpan_eq_none]
      simp
    rw [hnone, ruleSpan, Option.map_eq_none_iff]
    dsimp only
    split
    · next h => simp [h]
    · next h => simp [h]

/-- The edit of an item. -/
theorem itemEdit_eq_some {today : JsString} {it : Item ρ} {e : RecurrenceEdit ρ} (h : itemEdit today it = some e) :
    e.id = it.id ∧ ∃ content, it.due = some content ∧ ruleWords (textOf content) = ruleWords (textOf e.content) + 1 := by
  unfold itemEdit at h
  split at h
  · cases h
  · next content hdue =>
    dsimp only at h
    split at h
    · cases h
    · next token ht =>
      obtain rfl := Option.some.inj h
      exact ⟨rfl, content, hdue, ruleWords_cut ht⟩

theorem Item.due_eq_some {it : Item ρ} {content : List (InlineNode ρ)} :
    it.due = some content ↔
      it.type = text "checkListItem" ∧ it.checked = true ∧ it.id ≠ [] ∧ it.content = some content := by
  unfold Item.due
  split
  · next h => simp [h]
  · next h =>
    constructor
    · nofun
    · exact fun hdue => absurd ⟨hdue.1, hdue.2.1, hdue.2.2.1⟩ h

/-! ## The edits made -/

/-- What the edits do to an item. -/
def update (it : Item ρ) (e : RecurrenceEdit ρ) : Item ρ :=
  if it.id = e.id then { it with content := some e.content } else it

mutual

/-- The checked items are those from before: a copy is not checked. -/
theorem TaskBlock.visited_applyEdit {e : RecurrenceEdit ρ} {copy : Item ρ} (hcopy : copy.checked = false) :
    ∀ (block : TaskBlock ρ) (depth : ℕ), (visitedAll depth (block.applyEdit e copy)).filter (·.checked) =
      ((block.visited depth).filter (·.checked)).map (update · e)
  | .mk item children, depth => by
    have ih := visited_applyEdit (e := e) hcopy children (depth + 1)
    rw [TaskBlock.applyEdit, TaskBlock.visited]
    by_cases hdepth : depth > MAX_DEPTH
    · split <;> simp [visitedAll, TaskBlock.visited, hdepth]
    · split
      · next hid =>
        simp [visitedAll, TaskBlock.visited, hdepth, List.filter_cons, hcopy, ih]
        split <;> simp [update, hid]
      · next hid =>
        simp [visitedAll, TaskBlock.visited, hdepth, List.filter_cons, ih]
        split <;> simp [update, hid]

theorem visited_applyEdit {e : RecurrenceEdit ρ} {copy : Item ρ} (hcopy : copy.checked = false) :
    ∀ (blocks : List (TaskBlock ρ)) (depth : ℕ), (visitedAll depth (applyEdit e copy blocks)).filter (·.checked) =
      ((visitedAll depth blocks).filter (·.checked)).map (update · e)
  | [], _ => rfl
  | block :: blocks, depth => by
    have happend : ∀ bs cs : List (TaskBlock ρ), visitedAll depth (bs ++ cs) = visitedAll depth bs ++ visitedAll depth cs := by
      intro bs cs
      induction bs with
      | nil => rfl
      | cons b bs ih => rw [List.cons_append, visitedAll, visitedAll, ih, List.append_assoc]
    rw [applyEdit, happend, visitedAll, List.filter_append, List.filter_append, List.map_append,
      TaskBlock.visited_applyEdit hcopy block depth, visited_applyEdit hcopy blocks depth]

end

theorem visited_applyEdits (newId : List (TaskBlock ρ) → JsString) : ∀ (edits : List (RecurrenceEdit ρ))
    (blocks : List (TaskBlock ρ)), (visitedAll 0 (applyEdits newId blocks edits)).filter (·.checked) =
      ((visitedAll 0 blocks).filter (·.checked)).map (edits.foldl update ·)
  | [], blocks => by simp [applyEdits]
  | e :: edits, blocks => by
    have ih := visited_applyEdits newId edits (applyEdit e (copyOf (newId blocks) e) blocks)
    rw [visited_applyEdit rfl, List.map_map] at ih
    exact ih

theorem foldl_update_of_ne : ∀ {edits : List (RecurrenceEdit ρ)} {it : Item ρ}, (∀ e ∈ edits, e.id ≠ it.id) →
    edits.foldl update it = it
  | [], _, _ => rfl
  | e :: edits, it, h => by
    have he : update it e = it := if_neg (fun hid => h e List.mem_cons_self hid.symm)
    rw [List.foldl_cons, he]
    exact foldl_update_of_ne fun d hd => h d (List.mem_cons_of_mem e hd)

/-- The editor gives each block an id of its own. -/
def UniqueIds (items : List (Item ρ)) : Prop := items.Pairwise fun x y => x.id = y.id → x.id = []

/-- So an item gets its own edit and no other. -/
theorem foldl_update_own (today : JsString) {items : List (Item ρ)} (hid : UniqueIds items) {it : Item ρ} (hit : it ∈ items) :
    (items.filterMap (itemEdit today)).foldl update it =
      match itemEdit today it with
      | none => it
      | some e => { it with content := some e.content } := by
  have hother : ∀ l : List (Item ρ), (∀ x ∈ l, x.id = it.id → x.id = []) →
      ∀ e ∈ l.filterMap (itemEdit today), e.id ≠ it.id := by
    intro l hl e he hid
    obtain ⟨x, hx, hedit⟩ := List.mem_filterMap.mp he
    obtain ⟨hxid, content, hdue, -⟩ := itemEdit_eq_some hedit
    exact (Item.due_eq_some.mp hdue).2.2.1 (hl x hx (hxid ▸ hid))
  obtain ⟨l, r, rfl⟩ := List.append_of_mem hit
  obtain ⟨-, hr, hlr⟩ := List.pairwise_append.mp hid
  have hl := hother l fun x hx => hlr x hx it List.mem_cons_self
  have hr := hother r fun x hx h => h.trans ((List.pairwise_cons.mp hr).1 x hx h.symm)
  rw [List.filterMap_append, List.foldl_append, foldl_update_of_ne hl]
  cases hedit : itemEdit today it with
  | none => rw [List.filterMap_cons_none hedit, foldl_update_of_ne hr]
  | some e =>
    rw [List.filterMap_cons_some hedit, List.foldl_cons, update, if_pos (itemEdit_eq_some hedit).1.symm]
    exact foldl_update_of_ne hr

/-- After its edit: one rule less. -/
theorem second_itemEdit (today today' : JsString) (it : Item ρ) :
    itemEdit today' (match itemEdit today it with
      | none => it
      | some e => { it with content := some e.content }) = none ↔ ∀ content ∈ it.due, ruleWords (textOf content) ≤ 1 := by
  cases hedit : itemEdit today it with
  | none =>
    have hzero := itemEdit_eq_none.mp hedit
    refine ⟨fun _ content hc => (hzero content hc).le.trans (Nat.zero_le 1), fun _ => itemEdit_eq_none.mpr hzero⟩
  | some e =>
    obtain ⟨-, content, hdue, hcount⟩ := itemEdit_eq_some hedit
    obtain ⟨htype, hchecked, hne, hcontent⟩ := Item.due_eq_some.mp hdue
    have hdue' : ({ it with content := some e.content } : Item ρ).due = some e.content :=
      Item.due_eq_some.mpr ⟨htype, hchecked, hne, rfl⟩
    rw [itemEdit_eq_none, hdue', hdue]
    simp
    omega

/-- Doing the edits and asking again gives no edits exactly when no item that is done has two rules. -/
theorem second_run_iff (today today' : JsString) (newId : List (TaskBlock ρ) → JsString) (blocks : List (TaskBlock ρ))
    (hid : UniqueIds (visitedAll 0 blocks)) :
    recurrenceEdits (applyEdits newId blocks (recurrenceEdits blocks today)) today' = [] ↔
      ∀ it ∈ visitedAll 0 blocks, ∀ content ∈ it.due, ruleWords (textOf content) ≤ 1 := by
  have hchecked : ∀ (today : JsString) (items : List (Item ρ)), items.filterMap (itemEdit today) = [] ↔
      ∀ it ∈ items.filter (·.checked), itemEdit today it = none := by
    intro today items
    rw [List.filterMap_eq_nil_iff]
    refine ⟨fun h it hit => h it (List.mem_filter.mp hit).1, fun h it hit => ?_⟩
    by_cases hc : it.checked = true
    · exact h it (List.mem_filter.mpr ⟨hit, hc⟩)
    · exact itemEdit_eq_none.mpr fun content hdue => absurd (Item.due_eq_some.mp hdue).2.1 hc
  unfold recurrenceEdits
  rw [hchecked, visited_applyEdits, List.forall_mem_map]
  constructor
  · intro h it hit content hdue
    have hc := (Item.due_eq_some.mp hdue).2.1
    have hnone := h it (List.mem_filter.mpr ⟨hit, hc⟩)
    rw [foldl_update_own today hid hit] at hnone
    exact (second_itemEdit today today' it).mp hnone content hdue
  · intro h it hit
    have hit := (List.mem_filter.mp hit).1
    rw [foldl_update_own today hid hit]
    exact (second_itemEdit today today' it).mpr (h it hit)

end Cut

/-- A done item with this text. -/
def doneItem (id s : JsString) : Item Unit :=
  { id, type := text "checkListItem", checked := true, content := some [⟨some s, ()⟩] }

/-- A monthly item, split over two nodes, under a paragraph. -/
def monthlyTask : TaskBlock Unit :=
  .mk { doneItem (text "a") [] with type := text "paragraph", checked := false }
    [.mk { doneItem (text "b") [] with content := some [⟨some (text "rent repeat:"), ()⟩, ⟨some (text "monthly"), ()⟩] } []]

theorem second_run_monthly :
    recurrenceEdits (applyEdits (fun _ => text "c") [monthlyTask] (recurrenceEdits [monthlyTask] (text "2026-01-31")))
      (text "2026-01-31") = [] := by
  refine (second_run_iff (text "2026-01-31") (text "2026-01-31") (fun _ => text "c") _ ?_).mpr ?_
  · unfold UniqueIds
    decide +kernel
  · decide +kernel

/-- With two repeat tokens the second one is left, and the item is done once more. -/
theorem second_run_two_rules :
    recurrenceEdits (applyEdits (fun _ => text "b") [.mk (doneItem (text "a") (text "rent repeat:daily repeat:weekly")) []]
      (recurrenceEdits [.mk (doneItem (text "a") (text "rent repeat:daily repeat:weekly")) []] (text "2026-01-31")))
      (text "2026-01-31") ≠ [] := by
  intro h
  have hlength := congrArg List.length h
  revert hlength
  decide +kernel

end KyNotes.Web
