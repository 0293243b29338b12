import Mathlib.Data.List.Basic

/-!
# JSON texts

A text of JSON as the numbers of its characters. It is read in two passes, character by character into tokens and token by
token into a tree, so that every text is read or refused. Of a string a character and a code unit that is written by its
number are told apart; what they are together is for the language that reads it. A number is kept as it is written.

`print` writes a tree without spaces, and `parse_print` is that it reads back.
-/

namespace JsonText

/-- A place of a string: a character, or a code unit that is written as `\u` and its number. -/
inductive Item
  | char (c : ℕ)
  | unit (u : ℕ)
deriving DecidableEq

inductive Token
  | beginObject
  | endObject
  | beginArray
  | endArray
  | colon
  | comma
  | null
  | bool (b : Bool)
  | num (w : List ℕ)
  | str (s : List Item)
deriving DecidableEq

/-- The characters of an ASCII text. -/
def codes (s : String) : List ℕ := s.toList.map Char.toNat

/-! ## Characters -/

def isSpace (c : ℕ) : Bool := c = 32 ∨ c = 9 ∨ c = 10 ∨ c = 13

def isDigit (c : ℕ) : Bool := 48 ≤ c ∧ c ≤ 57

def isLetter (c : ℕ) : Bool := 97 ≤ c ∧ c ≤ 122

/-- What a number is written with. -/
def isNumeric (c : ℕ) : Bool := isDigit c ∨ c = 43 ∨ c = 45 ∨ c = 46 ∨ c = 69 ∨ c = 101

def hexValue (c : ℕ) : Option ℕ :=
  if 48 ≤ c ∧ c ≤ 57 then some (c - 48)
  else if 97 ≤ c ∧ c ≤ 102 then some (c - 87)
  else if 65 ≤ c ∧ c ≤ 70 then some (c - 55)
  else none

def hexDigit (d : ℕ) : ℕ := if d < 10 then 48 + d else 87 + d

/-- Braces, brackets, colon and comma. -/
def punctuation : List (ℕ × Token) :=
  [(123, .beginObject), (125, .endObject), (91, .beginArray), (93, .endArray), (58, .colon), (44, .comma)]

/-- The letters of the short escapes with the characters. -/
def shortEscapes : List (ℕ × ℕ) := [(34, 34), (92, 92), (47, 47), (98, 8), (102, 12), (110, 10), (114, 13), (116, 9)]

/-! ## Numbers -/

/-- What is after the digits, of which there is one. -/
def afterDigits : List ℕ → Option (List ℕ)
  | [] => none
  | c :: w => if isDigit c then some (w.dropWhile isDigit) else none

def afterInteger : List ℕ → Option (List ℕ)
  | [] => none
  | c :: w => if c = 48 then some w else afterDigits (c :: w)

def afterFraction : List ℕ → Option (List ℕ)
  | [] => some []
  | c :: w => if c = 46 then afterDigits w else some (c :: w)

def afterExponent : List ℕ → Option (List ℕ)
  | [] => some []
  | c :: w =>
    if c = 69 ∨ c = 101 then afterDigits (if w.head? = some 43 ∨ w.head? = some 45 then w.tail else w) else some (c :: w)

/-- `-?(0|[1-9]\d*)(\.\d+)?([eE][+-]?\d+)?`. -/
def isNumber (w : List ℕ) : Bool :=
  (((afterInteger (if w.head? = some 45 then w.tail else w)).bind afterFraction).bind afterExponent) = some []

/-! ## Tokens -/

/-- Where the reader is: between two tokens, in a string, after a backslash, in a number of a code unit with more digits to
come after the next one, or in a word or a number. -/
inductive Mode
  | between
  | str (s : List Item)
  | escape (s : List Item)
  | hex (s : List Item) (more : ℕ) (u : ℕ)
  | word (w : List ℕ)
  | num (w : List ℕ)

def wordToken (w : List ℕ) : Option Token :=
  [(codes "null", Token.null), (codes "true", .bool true), (codes "false", .bool false)].lookup w

def numToken (w : List ℕ) : Option Token := if isNumber w then some (.num w) else none

/-- A character between two tokens. -/
def start (c : ℕ) : Option (Mode × List Token) :=
  if isSpace c then some (.between, [])
  else if c = 34 then some (.str [], [])
  else if c = 45 ∨ isDigit c then some (.num [c], [])
  else if isLetter c then some (.word [c], [])
  else (punctuation.lookup c).map fun t => (.between, [t])

/-- A character, and the tokens that it ends. -/
def step : Mode → ℕ → Option (Mode × List Token)
  | .between, c => start c
  | .str s, c =>
    if c = 34 then some (.between, [.str s])
    else if c = 92 then some (.escape s, [])
    else if c < 32 then none
    else some (.str (s ++ [.char c]), [])
  | .escape s, c =>
    if c = 117 then some (.hex s 3 0, []) else (shortEscapes.lookup c).map fun d => (.str (s ++ [.char d]), [])
  | .hex s 0 u, c => (hexValue c).map fun d => (.str (s ++ [.unit (u * 16 + d)]), [])
  | .hex s (more + 1) u, c => (hexValue c).map fun d => (.hex s more (u * 16 + d), [])
  | .word w, c =>
    if isLetter c then some (.word (w ++ [c]), [])
    else (wordToken w).bind fun t => (start c).map fun r => (r.1, t :: r.2)
  | .num w, c =>
    if isNumeric c then some (.num (w ++ [c]), [])
    else (numToken w).bind fun t => (start c).map fun r => (r.1, t :: r.2)

/-- The end of the text. -/
def finish : Mode → Option (List Token)
  | .between => some []
  | .word w => (wordToken w).map fun t => [t]
  | .num w => (numToken w).map fun t => [t]
  | _ => none

def lex : Mode → List ℕ → Option (List Token)
  | m, [] => finish m
  | m, c :: s => (step m c).bind fun r => (lex r.1 s).map fun ts => r.2 ++ ts

/-! ## Trees -/

inductive Tree
  | null
  | bool (b : Bool)
  | num (w : List ℕ)
  | str (s : List Item)
  | arr (values : List Tree)
  | obj (members : List (List Item × Tree))

/-- What is open around the place: an array with its values so far, or an object with its members and the key. -/
inductive Frame
  | arr (values : List Tree)
  | obj (members : List (List Item × Tree)) (key : List Item)

/-- What may come. -/
inductive Want
  | value
  | firstValue
  | nextValue
  | firstKey
  | key (members : List (List Item × Tree))
  | colon (members : List (List Item × Tree)) (key : List Item)
  | nextKey (members : List (List Item × Tree))
  | done (t : Tree)

structure State where
  stack : List Frame
  want : Want

/-- A value is complete. -/
def put : List Frame → Tree → State
  | [], t => ⟨[], .done t⟩
  | .arr values :: stack, t => ⟨.arr (values ++ [t]) :: stack, .nextValue⟩
  | .obj members key :: stack, t => ⟨stack, .nextKey (members ++ [(key, t)])⟩

/-- A token where a value may come. -/
def begin (stack : List Frame) : Token → Option State
  | .null => some (put stack .null)
  | .bool b => some (put stack (.bool b))
  | .num w => some (put stack (.num w))
  | .str s => some (put stack (.str s))
  | .beginArray => some ⟨.arr [] :: stack, .firstValue⟩
  | .beginObject => some ⟨stack, .firstKey⟩
  | _ => none

/-- The end of the array. -/
def endArray : List Frame → Option State
  | .arr values :: stack => some (put stack (.arr values))
  | _ => none

def next (s : State) (t : Token) : Option State :=
  match s.want, t with
  | .value, t => begin s.stack t
  | .firstValue, .endArray => endArray s.stack
  | .firstValue, t => begin s.stack t
  | .nextValue, .comma => some ⟨s.stack, .value⟩
  | .nextValue, .endArray => endArray s.stack
  | .firstKey, .endObject => some (put s.stack (.obj []))
  | .firstKey, .str key => some ⟨s.stack, .colon [] key⟩
  | .key members, .str key => some ⟨s.stack, .colon members key⟩
  | .colon members key, .colon => some ⟨.obj members key :: s.stack, .value⟩
  | .nextKey members, .comma => some ⟨s.stack, .key members⟩
  | .nextKey members, .endObject => some (put s.stack (.obj members))
  | _, _ => none

def run : State → List Token → Option State
  | s, [] => some s
  | s, t :: ts => (next s t).bind fun s' => run s' ts

/-- The tree of a text; nothing where it is no JSON. -/
def parse (s : List ℕ) : Option Tree :=
  ((lex .between s).bind (run ⟨[], .value⟩)).bind fun s =>
    match s.want with
    | .done t => some t
    | _ => none

/-! ## Printing -/

def hex4 (u : ℕ) : List ℕ := [hexDigit (u / 4096 % 16), hexDigit (u / 256 % 16), hexDigit (u / 16 % 16), hexDigit (u % 16)]

/-- The characters that have a letter of their own after a backslash; a slash is written as it is. -/
def shortOf : List (ℕ × ℕ) := [(34, 34), (92, 92), (8, 98), (12, 102), (10, 110), (13, 114), (9, 116)]

def Item.print : Item → List ℕ
  | .char c =>
    match shortOf.lookup c with
    | some e => [92, e]
    | none => [c]
  | .unit u => 92 :: 117 :: hex4 u

def quote (s : List Item) : List ℕ := 34 :: (s.flatMap Item.print ++ [34])

mutual

def Tree.print : Tree → List ℕ
  | .null => codes "null"
  | .bool true => codes "true"
  | .bool false => codes "false"
  | .num w => w
  | .str s => quote s
  | .arr [] => [91, 93]
  | .arr (v :: vs) => 91 :: (v.print ++ (printValues vs ++ [93]))
  | .obj [] => [123, 125]
  | .obj ((k, v) :: ms) => 123 :: (quote k ++ 58 :: (v.print ++ (printMembers ms ++ [125])))

/-- The further values of an array. -/
def printValues : List Tree → List ℕ
  | [] => []
  | v :: vs => 44 :: (v.print ++ printValues vs)

/-- The further members of an object. -/
def printMembers : List (List Item × Tree) → List ℕ
  | [] => []
  | (k, v) :: ms => 44 :: (quote k ++ 58 :: (v.print ++ printMembers ms))

end

mutual

def Tree.tokens : Tree → List Token
  | .null => [.null]
  | .bool b => [.bool b]
  | .num w => [.num w]
  | .str s => [.str s]
  | .arr [] => [.beginArray, .endArray]
  | .arr (v :: vs) => .beginArray :: (v.tokens ++ (valuesTokens vs ++ [.endArray]))
  | .obj [] => [.beginObject, .endObject]
  | .obj ((k, v) :: ms) => .beginObject :: .str k :: .colon :: (v.tokens ++ (membersTokens ms ++ [.endObject]))

def valuesTokens : List Tree → List Token
  | [] => []
  | v :: vs => .comma :: (v.tokens ++ valuesTokens vs)

def membersTokens : List (List Item × Tree) → List Token
  | [] => []
  | (k, v) :: ms => .comma :: .str k :: .colon :: (v.tokens ++ membersTokens ms)

end

/-! ## What can be printed -/

/-- A control character has no place of its own. -/
def Item.Printable : Item → Prop
  | .char c => 32 ≤ c ∨ (shortOf.lookup c).isSome
  | .unit u => u < 65536

mutual

def Tree.Printable : Tree → Prop
  | .null | .bool _ => True
  | .num w => isNumber w = true
  | .str s => ∀ i ∈ s, i.Printable
  | .arr vs => PrintableValues vs
  | .obj ms => PrintableMembers ms

def PrintableValues : List Tree → Prop
  | [] => True
  | v :: vs => v.Printable ∧ PrintableValues vs

def PrintableMembers : List (List Item × Tree) → Prop
  | [] => True
  | (k, v) :: ms => (∀ i ∈ k, i.Printable) ∧ v.Printable ∧ PrintableMembers ms

end

/-! ## Reading what is printed -/

/-- A word or a number ends here. -/
def Ends (s : List ℕ) : Prop := ∀ c ∈ s.head?, isLetter c = false ∧ isNumeric c = false

theorem lex_cons (c : ℕ) (s : List ℕ) : lex .between (c :: s) = (start c).bind fun r => (lex r.1 s).map fun ts => r.2 ++ ts :=
  rfl

/-- A character between tokens that is one. -/
theorem lex_punctuation {c : ℕ} {t : Token} (h : start c = some (.between, [t])) (s : List ℕ) :
    lex .between (c :: s) = (lex .between s).map fun ts => t :: ts := by
  rw [lex_cons, h]
  rfl

/-- A character that ends no token. -/
theorem lex_silent {m m' : Mode} {c : ℕ} (h : step m c = some (m', [])) (s : List ℕ) : lex m (c :: s) = lex m' s := by
  rw [lex, h]
  exact Option.map_id' ..

/-- The characters of one token. -/
theorem lex_collect {m : List ℕ → Mode} {p : ℕ → Bool} (h : ∀ v c, p c = true → step (m v) c = some (m (v ++ [c]), []))
    (s : List ℕ) : ∀ (w v : List ℕ), (∀ c ∈ w, p c = true) → lex (m v) (w ++ s) = lex (m (v ++ w)) s
  | [], v, _ => by rw [List.nil_append, List.append_nil]
  | c :: w, v, hw => by
    have ih := lex_collect h s w (v ++ [c]) fun d hd => hw d (List.mem_cons_of_mem c hd)
    rw [List.append_assoc, List.singleton_append] at ih
    rw [List.cons_append, lex_silent (h v c (hw c List.mem_cons_self)), ih]

/-- The end of a token, which takes no character. -/
theorem lex_end {m : Mode} {t : Token} {s : List ℕ} (hfinish : finish m = some [t])
    (hstep : ∀ c ∈ s.head?, step m c = (start c).map fun r => (r.1, t :: r.2)) :
    lex m s = (lex .between s).map fun ts => t :: ts := by
  cases s with
  | nil => exact hfinish
  | cons c s =>
    rw [lex_cons, lex, hstep c rfl]
    cases start c with
    | none => rfl
    | some r => rw [Option.map_some, Option.bind_some, Option.bind_some, Option.map_map]; rfl

theorem lex_word_end {w : List ℕ} {t : Token} (ht : wordToken w = some t) {s : List ℕ} (hs : Ends s) :
    lex (.word w) s = (lex .between s).map fun ts => t :: ts := by
  refine lex_end ?_ fun c hc => ?_
  · rw [finish, ht]
    rfl
  · rw [step, if_neg (by rw [(hs c hc).1]; exact Bool.false_ne_true), ht]
    rfl

theorem step_word (v : List ℕ) (c : ℕ) (h : isLetter c = true) : step (.word v) c = some (.word (v ++ [c]), []) := if_pos h

theorem lex_word {w : List ℕ} {t : Token} (hne : w ≠ []) (hw : ∀ c ∈ w, isLetter c = true) (ht : wordToken w = some t)
    {s : List ℕ} (hs : Ends s) : lex .between (w ++ s) = (lex .between s).map fun ts => t :: ts := by
  cases w with
  | nil => exact absurd rfl hne
  | cons c w =>
    have hc := hw c List.mem_cons_self
    have hstart : step .between c = some (.word [c], []) := by
      have hrange : 97 ≤ c ∧ c ≤ 122 := of_decide_eq_true hc
      have hspace : isSpace c = false := by unfold isSpace; exact decide_eq_false (by omega)
      have hdigit : ¬(c = 45 ∨ isDigit c = true) := by unfold isDigit; simp; omega
      rw [step, start, if_neg (by rw [hspace]; exact Bool.false_ne_true), if_neg (by omega), if_neg hdigit, if_pos hc]
    rw [List.cons_append, lex_silent hstart, lex_collect step_word s w [c] fun d hd => hw d (List.mem_cons_of_mem c hd)]
    exact lex_word_end ht hs

theorem lex_num_end {w : List ℕ} (hw : isNumber w = true) {s : List ℕ} (hs : Ends s) :
    lex (.num w) s = (lex .between s).map fun ts => .num w :: ts := by
  have ht : numToken w = some (.num w) := if_pos hw
  refine lex_end ?_ fun c hc => ?_
  · rw [finish, ht]
    rfl
  · rw [step, if_neg (by rw [(hs c hc).2]; exact Bool.false_ne_true), ht]
    rfl

theorem step_num (v : List ℕ) (c : ℕ) (h : isNumeric c = true) : step (.num v) c = some (.num (v ++ [c]), []) := if_pos h

theorem isNumeric_of_isDigit {c : ℕ} (h : isDigit c = true) : isNumeric c = true := decide_eq_true (.inl h)

/-- What the parts of a number take. -/
theorem afterDigits_eq_some {w r : List ℕ} (h : afterDigits w = some r) :
    ∃ c ds, w = c :: (ds ++ r) ∧ isDigit c = true ∧ ∀ d ∈ ds, isDigit d = true := by
  cases w with
  | nil => cases h
  | cons c w =>
    rw [afterDigits] at h
    split at h
    · next hc =>
      obtain rfl := Option.some.inj h
      refine ⟨c, w.takeWhile isDigit, by rw [List.takeWhile_append_dropWhile], hc, fun d hd => ?_⟩
      exact List.all_eq_true.mp (List.all_takeWhile (p := isDigit)) d hd
    · cases h

theorem afterInteger_eq_some {w r : List ℕ} (h : afterInteger w = some r) :
    ∃ c ds, w = c :: (ds ++ r) ∧ isDigit c = true ∧ ∀ d ∈ ds, isDigit d = true := by
  cases w with
  | nil => cases h
  | cons c w =>
    rw [afterInteger] at h
    split at h
    · next hc =>
      obtain rfl := Option.some.inj h
      exact ⟨c, [], rfl, hc ▸ rfl, nofun⟩
    · exact afterDigits_eq_some h

theorem numeric_of_afterDigits {w r p : List ℕ} (hp : ∀ c ∈ p, isNumeric c = true) (h : afterDigits w = some r) :
    ∃ q, p ++ w = q ++ r ∧ ∀ c ∈ q, isNumeric c = true := by
  obtain ⟨c, ds, rfl, hc, hds⟩ := afterDigits_eq_some h
  refine ⟨p ++ c :: ds, by simp, ?_⟩
  intro d hd
  rcases List.mem_append.mp hd with hd | hd
  · exact hp d hd
  · rcases List.mem_cons.mp hd with rfl | hd
    · exact isNumeric_of_isDigit hc
    · exact isNumeric_of_isDigit (hds d hd)

theorem afterFraction_eq_some {w r : List ℕ} (h : afterFraction w = some r) :
    ∃ q, w = q ++ r ∧ ∀ c ∈ q, isNumeric c = true := by
  cases w with
  | nil => exact ⟨[], Option.some.inj h, nofun⟩
  | cons c w =>
    rw [afterFraction] at h
    split at h
    · next hc => exact numeric_of_afterDigits (p := [c]) (by simp [hc, isNumeric]) h
    · exact ⟨[], Option.some.inj h, nofun⟩

theorem afterExponent_eq_some {w r : List ℕ} (h : afterExponent w = some r) :
    ∃ q, w = q ++ r ∧ ∀ c ∈ q, isNumeric c = true := by
  cases w with
  | nil => exact ⟨[], Option.some.inj h, nofun⟩
  | cons c w =>
    rw [afterExponent] at h
    split at h
    · next hc =>
      have hnumeric : isNumeric c = true := decide_eq_true (by omega)
      split at h
      · next hsign =>
        cases w with
        | nil => cases h
        | cons d w =>
          have hd : isNumeric d = true := by
            simp only [List.head?_cons, Option.some.injEq] at hsign
            exact decide_eq_true (by omega)
          exact numeric_of_afterDigits (p := [c, d]) (by simp [hnumeric, hd]) h
      · exact numeric_of_afterDigits (p := [c]) (by simp [hnumeric]) h
    · exact ⟨[], Option.some.inj h, nofun⟩

/-- A number begins with a sign or a digit and goes on with what numbers are written with. -/
theorem isNumber_numeric {w : List ℕ} (h : isNumber w = true) :
    (∀ c ∈ w, isNumeric c = true) ∧ ∃ c s, w = c :: s ∧ (c = 45 ∨ isDigit c = true) := by
  have h := of_decide_eq_true h
  obtain ⟨r₂, h₂, h₃⟩ := Option.bind_eq_some_iff.mp h
  obtain ⟨r₁, h₁, h₂⟩ := Option.bind_eq_some_iff.mp h₂
  obtain ⟨c, ds, hw, hc, hds⟩ := afterInteger_eq_some h₁
  obtain ⟨q₁, rfl, hq₁⟩ := afterFraction_eq_some h₂
  obtain ⟨q₂, rfl, hq₂⟩ := afterExponent_eq_some h₃
  have hparts : ∀ d ∈ c :: (ds ++ (q₁ ++ (q₂ ++ []))), isNumeric d = true := by
    intro d hd
    simp only [List.mem_cons, List.mem_append, List.not_mem_nil, or_false] at hd
    rcases hd with rfl | hd | hd | hd
    · exact isNumeric_of_isDigit hc
    · exact isNumeric_of_isDigit (hds d hd)
    · exact hq₁ d hd
    · exact hq₂ d hd
  split at hw
  · next hsign =>
    cases w with
    | nil => cases hsign
    | cons d w =>
      obtain rfl := Option.some.inj hsign
      rw [List.tail_cons] at hw
      subst hw
      exact ⟨List.forall_mem_cons.mpr ⟨rfl, hparts⟩, _, _, rfl, .inl rfl⟩
  · subst hw
    exact ⟨hparts, _, _, rfl, .inr hc⟩

theorem lex_num {w : List ℕ} (hw : isNumber w = true) {s : List ℕ} (hs : Ends s) :
    lex .between (w ++ s) = (lex .between s).map fun ts => .num w :: ts := by
  obtain ⟨hnumeric, c, v, rfl, hc⟩ := isNumber_numeric hw
  have hstart : step .between c = some (.num [c], []) := by
    have hrange : c = 45 ∨ 48 ≤ c ∧ c ≤ 57 := hc.imp id of_decide_eq_true
    have hspace : isSpace c = false := by unfold isSpace; exact decide_eq_false (by omega)
    rw [step, start, if_neg (by rw [hspace]; exact Bool.false_ne_true), if_neg (by omega), if_pos hc]
  rw [List.cons_append, lex_silent hstart, lex_collect step_num s v [c] fun d hd => hnumeric d (List.mem_cons_of_mem c hd)]
  exact lex_num_end hw hs

/-! ### Strings -/

theorem hexDigit_lt {d : ℕ} (h : d < 16) : hexDigit d < 128 := by
  unfold hexDigit
  split <;> omega

theorem hex4_lt {u n : ℕ} (h : n ∈ 92 :: 117 :: hex4 u) : n < 128 := by
  simp only [hex4, List.mem_cons, List.not_mem_nil, or_false] at h
  rcases h with rfl | rfl | rfl | rfl | rfl | rfl
  · decide
  · decide
  all_goals exact hexDigit_lt (Nat.mod_lt _ (by decide))

theorem short_lt {c d : ℕ} (h : shortOf.lookup c = some d) : d < 128 := by
  have hall : ∀ p ∈ shortOf, p.2 < 128 := by decide
  obtain ⟨l, t, hl, -⟩ := List.lookup_eq_some_iff.mp h
  exact hall (c, d) (hl ▸ List.mem_append_right l List.mem_cons_self)

theorem shortEscapes_of_shortOf {c e : ℕ} (h : shortOf.lookup c = some e) : e ≠ 117 ∧ shortEscapes.lookup e = some c := by
  have hall : ∀ p ∈ shortOf, p.2 ≠ 117 ∧ shortEscapes.lookup p.2 = some p.1 := by decide
  obtain ⟨l, r, hl, -⟩ := List.lookup_eq_some_iff.mp h
  exact hall (c, e) (hl ▸ List.mem_append_right l List.mem_cons_self)

theorem hexValue_hexDigit {d : ℕ} (h : d < 16) : hexValue (hexDigit d) = some d := by
  have hall : ∀ d ∈ List.range 16, hexValue (hexDigit d) = some d := by decide
  exact hall d (List.mem_range.mpr h)

/-- One place of a string. -/
theorem lex_item {i : Item} (hi : i.Printable) (acc : List Item) (s : List ℕ) :
    lex (.str acc) (i.print ++ s) = lex (.str (acc ++ [i])) s := by
  have hescape : step (.str acc) 92 = some (.escape acc, []) := rfl
  cases i with
  | char c =>
    cases hshort : shortOf.lookup c with
    | some e =>
      obtain ⟨hne, he⟩ := shortEscapes_of_shortOf hshort
      have hletter : step (.escape acc) e = some (.str (acc ++ [.char c]), []) := by rw [step, if_neg hne, he]; rfl
      have hprint : (Item.char c).print ++ s = 92 :: e :: s := by rw [Item.print, hshort]; rfl
      rw [hprint, lex_silent hescape, lex_silent hletter]
    | none =>
      have hc : 32 ≤ c := hi.resolve_right (by simp [hshort])
      have hquote : c ≠ 34 := by
        rintro rfl
        exact absurd hshort (by decide)
      have hslash : c ≠ 92 := by
        rintro rfl
        exact absurd hshort (by decide)
      have hstep : step (.str acc) c = some (.str (acc ++ [.char c]), []) := by
        rw [step, if_neg hquote, if_neg hslash, if_neg (Nat.not_lt.mpr hc)]
      have hprint : (Item.char c).print ++ s = c :: s := by rw [Item.print, hshort]; rfl
      rw [hprint, lex_silent hstep]
  | unit u =>
    have hu : u < 65536 := hi
    have h₁ := hexValue_hexDigit (Nat.mod_lt (u / 4096) (by decide : 16 > 0))
    have h₂ := hexValue_hexDigit (Nat.mod_lt (u / 256) (by decide : 16 > 0))
    have h₃ := hexValue_hexDigit (Nat.mod_lt (u / 16) (by decide : 16 > 0))
    have h₄ := hexValue_hexDigit (Nat.mod_lt u (by decide : 16 > 0))
    have hvalue : ((u / 4096 % 16 * 16 + u / 256 % 16) * 16 + u / 16 % 16) * 16 + u % 16 = u := by omega
    have hmark : step (.escape acc) 117 = some (.hex acc 3 0, []) := rfl
    have hstep₁ : step (.hex acc 3 0) (hexDigit (u / 4096 % 16)) = some (.hex acc 2 (u / 4096 % 16), []) := by
      rw [step, h₁, Option.map_some, Nat.zero_mul, Nat.zero_add]
    have hstep₂ : step (.hex acc 2 (u / 4096 % 16)) (hexDigit (u / 256 % 16)) =
        some (.hex acc 1 (u / 4096 % 16 * 16 + u / 256 % 16), []) := by rw [step, h₂]; rfl
    have hstep₃ : step (.hex acc 1 (u / 4096 % 16 * 16 + u / 256 % 16)) (hexDigit (u / 16 % 16)) =
        some (.hex acc 0 ((u / 4096 % 16 * 16 + u / 256 % 16) * 16 + u / 16 % 16), []) := by rw [step, h₃]; rfl
    have hstep₄ : step (.hex acc 0 ((u / 4096 % 16 * 16 + u / 256 % 16) * 16 + u / 16 % 16)) (hexDigit (u % 16)) =
        some (.str (acc ++ [.unit u]), []) := by rw [step, h₄, Option.map_some, hvalue]
    have hprint : (Item.unit u).print ++ s = 92 :: 117 :: hexDigit (u / 4096 % 16) :: hexDigit (u / 256 % 16) ::
      hexDigit (u / 16 % 16) :: hexDigit (u % 16) :: s := rfl
    rw [hprint, lex_silent hescape, lex_silent hmark, lex_silent hstep₁, lex_silent hstep₂, lex_silent hstep₃, lex_silent hstep₄]

theorem lex_items (s : List ℕ) : ∀ (is acc : List Item), (∀ i ∈ is, i.Printable) →
    lex (.str acc) (is.flatMap Item.print ++ 34 :: s) = (lex .between s).map fun ts => .str (acc ++ is) :: ts
  | [], acc, _ => by
    rw [List.append_nil]
    rfl
  | i :: is, acc, h => by
    rw [List.flatMap_cons, List.append_assoc, lex_item (h i List.mem_cons_self),
      lex_items s is _ fun j hj => h j (List.mem_cons_of_mem i hj), List.append_assoc]
    rfl

theorem lex_quote {is : List Item} (h : ∀ i ∈ is, i.Printable) (s : List ℕ) :
    lex .between (quote is ++ s) = (lex .between s).map fun ts => .str is :: ts := by
  have hitems := lex_items s is [] h
  rw [List.nil_append] at hitems
  rw [quote, List.cons_append, lex_cons, List.append_assoc, List.singleton_append, ← hitems]
  simp [start, isSpace]

/-! ### Trees -/

theorem ends_cons {c : ℕ} (hc : isLetter c = false ∧ isNumeric c = false) (s : List ℕ) : Ends (c :: s) := by
  intro d hd
  obtain rfl := Option.some.inj hd
  exact hc

theorem ends_printValues (vs : List Tree) (s : List ℕ) : Ends (printValues vs ++ 93 :: s) := by
  cases vs with
  | nil => exact ends_cons (by decide) s
  | cons v vs =>
    rw [printValues, List.cons_append]
    exact ends_cons (by decide) _

theorem ends_printMembers (ms : List (List Item × Tree)) (s : List ℕ) : Ends (printMembers ms ++ 125 :: s) := by
  cases ms with
  | nil => exact ends_cons (by decide) s
  | cons m ms =>
    rw [printMembers, List.cons_append]
    exact ends_cons (by decide) _

mutual

/-- The tokens of what is printed. -/
theorem lex_print : ∀ (t : Tree) {s : List ℕ}, t.Printable → Ends s →
    lex .between (t.print ++ s) = (lex .between s).map fun ts => t.tokens ++ ts
  | .null, s, _, hs => lex_word (w := codes "null") (by decide) (by decide) (by decide) hs
  | .bool true, s, _, hs => lex_word (w := codes "true") (by decide) (by decide) (by decide) hs
  | .bool false, s, _, hs => lex_word (w := codes "false") (by decide) (by decide) (by decide) hs
  | .num w, s, h, hs => lex_num h hs
  | .str is, s, h, _ => lex_quote h s
  | .arr [], s, _, _ => by
    rw [Tree.print, List.cons_append, lex_punctuation (t := .beginArray) rfl, List.cons_append,
      lex_punctuation (t := .endArray) rfl, Option.map_map]
    rfl
  | .arr (v :: vs), s, h, hs => by
    rw [Tree.print, List.cons_append, lex_punctuation (t := .beginArray) rfl, List.append_assoc, List.append_assoc,
      List.singleton_append, lex_print v h.1 (ends_printValues vs s), lex_printValues vs h.2 s,
      lex_punctuation (t := .endArray) rfl]
    simp [Tree.tokens, Function.comp_def]
  | .obj [], s, _, _ => by
    rw [Tree.print, List.cons_append, lex_punctuation (t := .beginObject) rfl, List.cons_append,
      lex_punctuation (t := .endObject) rfl, Option.map_map]
    rfl
  | .obj ((k, v) :: ms), s, h, hs => by
    rw [Tree.print, List.cons_append, lex_punctuation (t := .beginObject) rfl, List.append_assoc, List.cons_append,
      lex_quote h.1, lex_punctuation (t := .colon) rfl, List.append_assoc, List.append_assoc, List.singleton_append,
      lex_print v h.2.1 (ends_printMembers ms s), lex_printMembers ms h.2.2 s, lex_punctuation (t := .endObject) rfl]
    simp [Tree.tokens, Function.comp_def]

theorem lex_printValues : ∀ (vs : List Tree), PrintableValues vs → ∀ s : List ℕ,
    lex .between (printValues vs ++ 93 :: s) = (lex .between (93 :: s)).map fun ts => valuesTokens vs ++ ts
  | [], _, s => by simp [printValues, valuesTokens]
  | v :: vs, h, s => by
    rw [printValues, List.cons_append, lex_punctuation (t := .comma) rfl, List.append_assoc,
      lex_print v h.1 (ends_printValues vs s), lex_printValues vs h.2 s]
    simp [valuesTokens, Function.comp_def]

theorem lex_printMembers : ∀ (ms : List (List Item × Tree)), PrintableMembers ms → ∀ s : List ℕ,
    lex .between (printMembers ms ++ 125 :: s) = (lex .between (125 :: s)).map fun ts => membersTokens ms ++ ts
  | [], _, s => by simp [printMembers, membersTokens]
  | (k, v) :: ms, h, s => by
    rw [printMembers, List.cons_append, lex_punctuation (t := .comma) rfl, List.append_assoc, lex_quote h.1,
      List.cons_append, lex_punctuation (t := .colon) rfl, List.append_assoc,
      lex_print v h.2.1 (ends_printMembers ms s), lex_printMembers ms h.2.2 s]
    simp [membersTokens, Function.comp_def]

end

/-! ### Runs -/

mutual

/-- The tokens of a tree, where a value may come, are that value. -/
theorem run_tokens : ∀ (t : Tree) {want : Want} (stack : List Frame) (ts : List Token), want = .value ∨ want = .firstValue →
    run ⟨stack, want⟩ (t.tokens ++ ts) = run (put stack t) ts
  | .null, _, _, _, h => by rcases h with rfl | rfl <;> rfl
  | .bool b, _, _, _, h => by rcases h with rfl | rfl <;> rfl
  | .num w, _, _, _, h => by rcases h with rfl | rfl <;> rfl
  | .str s, _, _, _, h => by rcases h with rfl | rfl <;> rfl
  | .arr [], _, _, _, h => by rcases h with rfl | rfl <;> rfl
  | .arr (v :: vs), _, stack, ts, h => by
    have hopen : run ⟨.arr [] :: stack, .firstValue⟩ (v.tokens ++ (valuesTokens vs ++ .endArray :: ts)) =
        run (put stack (.arr (v :: vs))) ts := by
      rw [run_tokens v _ _ (.inr rfl)]
      exact run_valuesTokens vs [v] stack ts
    rw [Tree.tokens, List.cons_append, List.append_assoc, List.append_assoc, List.singleton_append, ← hopen]
    rcases h with rfl | rfl <;> rfl
  | .obj [], _, _, _, h => by rcases h with rfl | rfl <;> rfl
  | .obj ((k, v) :: ms), _, stack, ts, h => by
    have hopen : run ⟨.obj [] k :: stack, .value⟩ (v.tokens ++ (membersTokens ms ++ .endObject :: ts)) =
        run (put stack (.obj ((k, v) :: ms))) ts := by
      rw [run_tokens v _ _ (.inl rfl)]
      exact run_membersTokens ms [(k, v)] stack ts
    rw [Tree.tokens, List.cons_append, List.cons_append, List.cons_append, List.append_assoc, List.append_assoc,
      List.singleton_append, ← hopen]
    rcases h with rfl | rfl <;> rfl

theorem run_valuesTokens : ∀ (vs acc : List Tree) (stack : List Frame) (ts : List Token),
    run ⟨.arr acc :: stack, .nextValue⟩ (valuesTokens vs ++ .endArray :: ts) = run (put stack (.arr (acc ++ vs))) ts
  | [], acc, _, _ => by
    rw [List.append_nil]
    rfl
  | v :: vs, acc, stack, ts => by
    have hnext : run ⟨.arr acc :: stack, .value⟩ (v.tokens ++ (valuesTokens vs ++ .endArray :: ts)) =
        run (put stack (.arr (acc ++ v :: vs))) ts := by
      have happend : acc ++ v :: vs = acc ++ [v] ++ vs := by simp
      rw [run_tokens v _ _ (.inl rfl), happend]
      exact run_valuesTokens vs (acc ++ [v]) stack ts
    rw [valuesTokens, List.cons_append, List.append_assoc, ← hnext]
    rfl

theorem run_membersTokens : ∀ (ms acc : List (List Item × Tree)) (stack : List Frame) (ts : List Token),
    run ⟨stack, .nextKey acc⟩ (membersTokens ms ++ .endObject :: ts) = run (put stack (.obj (acc ++ ms))) ts
  | [], acc, _, _ => by
    rw [List.append_nil]
    rfl
  | (k, v) :: ms, acc, stack, ts => by
    have hnext : run ⟨.obj acc k :: stack, .value⟩ (v.tokens ++ (membersTokens ms ++ .endObject :: ts)) =
        run (put stack (.obj (acc ++ (k, v) :: ms))) ts := by
      have happend : acc ++ (k, v) :: ms = acc ++ [(k, v)] ++ ms := by simp
      rw [run_tokens v _ _ (.inl rfl), happend]
      exact run_membersTokens ms (acc ++ [(k, v)]) stack ts
    rw [membersTokens, List.cons_append, List.cons_append, List.cons_append, List.append_assoc, ← hnext]
    rfl

end

/-- What is printed reads back, also with spaces after it. -/
theorem parse_print {t : Tree} (h : t.Printable) {spaces : List ℕ} (hspaces : ∀ c ∈ spaces, isSpace c = true) :
    parse (t.print ++ spaces) = some t := by
  have hend : lex .between spaces = some [] := by
    induction spaces with
    | nil => rfl
    | cons c spaces ih =>
      have hc : start c = some (.between, []) := if_pos (hspaces c List.mem_cons_self)
      rw [lex_cons, hc, Option.bind_some, ih fun d hd => hspaces d (List.mem_cons_of_mem c hd)]
      rfl
  have hends : Ends spaces := by
    intro c hc
    have hmem := List.mem_of_mem_head? hc
    have hspace : c = 32 ∨ c = 9 ∨ c = 10 ∨ c = 13 := of_decide_eq_true (hspaces c hmem)
    rcases hspace with rfl | rfl | rfl | rfl <;> decide
  have hrun : run ⟨[], .value⟩ (t.tokens ++ []) = run (put [] t) [] := run_tokens t [] [] (.inl rfl)
  rw [parse, lex_print t h hends, hend, Option.map_some, Option.bind_some, hrun]
  rfl

end JsonText
