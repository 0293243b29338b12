import KyNotes.Lib.JsonText
import KyNotes.Lib.Utf16

/-!
# Texts of JSON in code units

A text is read by its characters or by its UTF-16 code units. `parse_units`: the trees are the same, with two places of a
string in the units where a character is written with two.
-/

namespace JsonText

/-- The code units of a character, by their numbers. -/
def unitCodes (c : ℕ) : List ℕ :=
  if c < 0x10000 then [c] else [0xd800 + (c - 0x10000) / 0x400, 0xdc00 + (c - 0x10000) % 0x400]

def Item.units : Item → List Item
  | .char c => (unitCodes c).map .char
  | .unit u => [.unit u]

def unitItems (s : List Item) : List Item := s.flatMap Item.units

theorem unitItems_append (s t : List Item) : unitItems (s ++ t) = unitItems s ++ unitItems t := List.flatMap_append

mutual

def Tree.units : Tree → Tree
  | .null => .null
  | .bool b => .bool b
  | .num w => .num w
  | .str s => .str (unitItems s)
  | .arr vs => .arr (unitValues vs)
  | .obj ms => .obj (unitMembers ms)

def unitValues : List Tree → List Tree
  | [] => []
  | v :: vs => v.units :: unitValues vs

def unitMembers : List (List Item × Tree) → List (List Item × Tree)
  | [] => []
  | (k, v) :: ms => (unitItems k, v.units) :: unitMembers ms

end

theorem unitValues_eq_map (vs : List Tree) : unitValues vs = vs.map Tree.units := by
  induction vs with
  | nil => rfl
  | cons v vs ih => rw [unitValues, ih, List.map_cons]

theorem unitMembers_eq_map (ms : List (List Item × Tree)) :
    unitMembers ms = ms.map fun m => (unitItems m.1, m.2.units) := by
  induction ms with
  | nil => rfl
  | cons m ms ih => rw [unitMembers, ih, List.map_cons]

/-! ## Tokens -/

def Token.units : Token → Token
  | .str s => .str (unitItems s)
  | t => t

def Mode.units : Mode → Mode
  | .str s => .str (unitItems s)
  | .escape s => .escape (unitItems s)
  | .hex s more u => .hex (unitItems s) more u
  | m => m

/-- What a character does, in code units. -/
def unitStep (r : Mode × List Token) : Mode × List Token := (r.1.units, r.2.map Token.units)

theorem mem_of_lookup {α β : Type} [BEq α] [LawfulBEq α] {l : List (α × β)} {k : α} {b : β} (h : l.lookup k = some b) :
    (k, b) ∈ l := by
  obtain ⟨l₁, l₂, rfl, -⟩ := List.lookup_eq_some_iff.mp h
  exact List.mem_append_right _ List.mem_cons_self

theorem punctuation_units {c : ℕ} {t : Token} (h : punctuation.lookup c = some t) : t.units = t := by
  have hmem : ∀ x ∈ punctuation, x.2.units = x.2 := by decide
  exact hmem _ (mem_of_lookup h)

theorem start_units (c : ℕ) : (start c).map unitStep = start c := by
  unfold start
  split
  · rfl
  split
  · rfl
  split
  · rfl
  split
  · rfl
  · cases hp : punctuation.lookup c with
    | none => rfl
    | some t => simp [unitStep, Mode.units, punctuation_units hp]

theorem numToken_units (w : List ℕ) : (numToken w).map Token.units = numToken w := by
  unfold numToken
  split <;> rfl

theorem wordToken_units (w : List ℕ) : (wordToken w).map Token.units = wordToken w := by
  cases h : wordToken w with
  | none => rfl
  | some t =>
    have hmem : ∀ x ∈ [(codes "null", Token.null), (codes "true", .bool true), (codes "false", .bool false)],
        x.2.units = x.2 := by decide
    exact congrArg some (hmem _ (mem_of_lookup h))

/-- A word or a number that ends at a character. -/
theorem ended_units {t : Option Token} (ht : t.map Token.units = t) (c : ℕ) :
    (t.bind fun t => (start c).map fun r => (r.1, t :: r.2)).map unitStep =
      t.bind fun t => (start c).map fun r => (r.1, t :: r.2) := by
  cases t with
  | none => rfl
  | some t =>
    have hstart := start_units c
    cases hs : start c with
    | none => simp
    | some r =>
      rw [hs, Option.map_some, Option.some.injEq] at hstart
      have hr : r.1.units = r.1 ∧ r.2.map Token.units = r.2 := Prod.mk.inj hstart
      simp [unitStep, hr, Option.some.inj ht]

theorem step_units {c : ℕ} (hc : c < 0x10000) (m : Mode) : step m.units c = (step m c).map unitStep := by
  have hitem : Item.units (.char c) = [.char c] := by simp [Item.units, unitCodes, hc]
  cases m with
  | between => exact (start_units c).symm
  | str s =>
    simp only [Mode.units, step]
    split
    · rfl
    split
    · rfl
    split
    · rfl
    · simp [unitStep, Mode.units, unitItems, hitem]
  | escape s =>
    simp only [Mode.units, step]
    split
    · rfl
    · cases hl : shortEscapes.lookup c with
      | none => rfl
      | some d =>
        have hd : ∀ x ∈ shortEscapes, Item.units (.char x.2) = [.char x.2] := by decide
        have hditem : Item.units (.char d) = [.char d] := hd _ (mem_of_lookup hl)
        simp [unitStep, Mode.units, unitItems, hditem]
  | hex s more u =>
    cases more with
    | zero =>
      simp only [Mode.units, step]
      cases hexValue c with
      | none => rfl
      | some d => simp [unitStep, Mode.units, unitItems, Item.units]
    | succ more =>
      simp only [Mode.units, step]
      cases hexValue c with
      | none => rfl
      | some d => rfl
  | word w =>
    simp only [Mode.units, step]
    split
    · rfl
    · exact (ended_units (wordToken_units w) c).symm
  | num w =>
    simp only [Mode.units, step]
    split
    · rfl
    · exact (ended_units (numToken_units w) c).symm

/-- A character that is no ASCII starts nothing. -/
theorem start_high {c : ℕ} (hc : 128 ≤ c) : start c = none := by
  have hspace : isSpace c = false := decide_eq_false (by omega)
  have hdigit : isDigit c = false := decide_eq_false (by omega)
  have hletter : isLetter c = false := decide_eq_false (by omega)
  have hpunctuation : punctuation.lookup c = none := by
    refine List.lookup_eq_none_iff.mpr ?_
    intro x hx
    have hlow : ∀ x ∈ punctuation, x.1 < 128 := by decide
    exact bne_iff_ne.mpr (Nat.ne_of_gt (Nat.lt_of_lt_of_le (hlow x hx) hc))
  rw [start, hspace, hdigit, hletter, hpunctuation, if_neg Bool.false_ne_true, if_neg (by omega), if_neg (by simp; omega),
    if_neg Bool.false_ne_true]
  rfl

/-- Only strings have characters that are no ASCII. -/
theorem step_high {c : ℕ} (hc : 128 ≤ c) {m : Mode} (hm : ∀ s, m ≠ .str s) : step m c = none := by
  cases m with
  | between => exact start_high hc
  | str s => exact absurd rfl (hm s)
  | escape s =>
    have hshort : shortEscapes.lookup c = none := by
      refine List.lookup_eq_none_iff.mpr ?_
      intro x hx
      have hlow : ∀ x ∈ shortEscapes, x.1 < 128 := by decide
      exact bne_iff_ne.mpr (Nat.ne_of_gt (Nat.lt_of_lt_of_le (hlow x hx) hc))
    rw [step, if_neg (by omega), hshort]
    rfl
  | hex s more u =>
    have hhex : hexValue c = none := by
      rw [hexValue, if_neg (by omega), if_neg (by omega), if_neg (by omega)]
    cases more with
    | zero => rw [step, hhex]; rfl
    | succ more => rw [step, hhex]; rfl
  | word w =>
    have hletter : isLetter c = false := decide_eq_false (by omega)
    rw [step, hletter, if_neg Bool.false_ne_true, start_high hc]
    cases wordToken w <;> rfl
  | num w =>
    have hnumeric : isNumeric c = false := by
      have hdigit : isDigit c = false := decide_eq_false (by omega)
      exact decide_eq_false (by rw [hdigit]; simp; omega)
    rw [step, hnumeric, if_neg Bool.false_ne_true, start_high hc]
    cases numToken w <;> rfl

theorem step_char {c : ℕ} (hc : 128 ≤ c) (s : List Item) : step (.str s) c = some (.str (s ++ [.char c]), []) := by
  rw [step, if_neg (by omega), if_neg (by omega), if_neg (by omega)]

theorem finish_units (m : Mode) : finish m.units = (finish m).map (List.map Token.units) := by
  cases m with
  | word w =>
    have ht := wordToken_units w
    cases hw : wordToken w with
    | none => simp [Mode.units, finish, hw]
    | some t =>
      rw [hw] at ht
      simp [Mode.units, finish, hw, Option.some.inj ht]
  | num w =>
    have ht := numToken_units w
    cases hw : numToken w with
    | none => simp [Mode.units, finish, hw]
    | some t =>
      rw [hw] at ht
      simp [Mode.units, finish, hw, Option.some.inj ht]
  | between | str | escape | hex => rfl

theorem lex_units : ∀ (cs : List ℕ) (m : Mode),
    lex m.units (cs.flatMap unitCodes) = (lex m cs).map (List.map Token.units)
  | [], m => finish_units m
  | c :: cs, m => by
    rw [List.flatMap_cons]
    by_cases hc : c < 0x10000
    · have hcode : unitCodes c = [c] := if_pos hc
      rw [hcode, List.singleton_append, lex, lex, step_units hc]
      cases step m c with
      | none => rfl
      | some r =>
        have ih := lex_units cs r.1
        simp only [Option.map_some, Option.bind_some, unitStep, ih, Option.map_map]
        refine congrArg (fun f => (lex r.1 cs).map f) (funext fun ts => ?_)
        exact List.map_append.symm
    · have hcode : unitCodes c = [0xd800 + (c - 0x10000) / 0x400, 0xdc00 + (c - 0x10000) % 0x400] := if_neg hc
      rw [hcode]
      by_cases hm : ∃ s, m = .str s
      · obtain ⟨s, rfl⟩ := hm
        have ih := lex_units cs (.str (s ++ [.char c]))
        have hitems : unitItems (s ++ [.char c]) = unitItems s ++ [.char (0xd800 + (c - 0x10000) / 0x400)] ++
            [.char (0xdc00 + (c - 0x10000) % 0x400)] := by
          simp [unitItems, Item.units, hcode]
        rw [lex_silent (step_char (by omega) s), ← ih, Mode.units, Mode.units, hitems]
        exact (lex_silent (step_char (by omega) _) _).trans (lex_silent (step_char (by omega) _) _)
      · have hunits : ∀ s, m.units ≠ .str s := by
          intro s hs
          cases m with
          | str t => exact hm ⟨t, rfl⟩
          | _ => cases hs
        rw [List.cons_append, lex, lex, step_high (by omega) hunits, step_high (by omega) fun s hs => hm ⟨s, hs⟩]
        rfl

/-! ## Trees -/

def Frame.units : Frame → Frame
  | .arr vs => .arr (unitValues vs)
  | .obj ms key => .obj (unitMembers ms) (unitItems key)

def Want.units : Want → Want
  | .key ms => .key (unitMembers ms)
  | .colon ms k => .colon (unitMembers ms) (unitItems k)
  | .nextKey ms => .nextKey (unitMembers ms)
  | .done t => .done t.units
  | w => w

def State.units (s : State) : State := ⟨s.stack.map Frame.units, s.want.units⟩

theorem put_units (stack : List Frame) (t : Tree) : put (stack.map Frame.units) t.units = (put stack t).units := by
  match stack with
  | [] => rfl
  | .arr vs :: stack => simp [put, State.units, Frame.units, Want.units, unitValues_eq_map]
  | .obj ms key :: stack => simp [put, State.units, Frame.units, Want.units, unitMembers_eq_map]

theorem begin_units (stack : List Frame) (t : Token) :
    begin (stack.map Frame.units) t.units = (begin stack t).map State.units := by
  cases t with
  | null => exact congrArg some (put_units stack .null)
  | bool b => exact congrArg some (put_units stack (.bool b))
  | num w => exact congrArg some (put_units stack (.num w))
  | str s => exact congrArg some (put_units stack (.str s))
  | beginArray | beginObject | endArray | endObject | colon | comma => rfl

theorem endArray_units (stack : List Frame) : endArray (stack.map Frame.units) = (endArray stack).map State.units := by
  match stack with
  | [] => rfl
  | .arr vs :: stack => exact congrArg some (put_units stack (.arr vs))
  | .obj ms key :: stack => rfl

theorem next_units (s : State) (t : Token) : next s.units t.units = (next s t).map State.units := by
  obtain ⟨stack, want⟩ := s
  cases want with
  | value => exact begin_units stack t
  | firstValue =>
    have hbegin := begin_units stack t
    cases t with
    | endArray => exact endArray_units stack
    | _ => exact hbegin
  | nextValue =>
    cases t with
    | endArray => exact endArray_units stack
    | _ => rfl
  | firstKey =>
    cases t with
    | endObject => exact congrArg some (put_units stack (.obj []))
    | _ => rfl
  | nextKey ms =>
    cases t with
    | endObject => exact congrArg some (put_units stack (.obj ms))
    | _ => rfl
  | key | colon | done => cases t <;> rfl

theorem run_units : ∀ (ts : List Token) (s : State), run s.units (ts.map Token.units) = (run s ts).map State.units
  | [], _ => rfl
  | t :: ts, s => by
    rw [List.map_cons, run, run, next_units]
    cases next s t with
    | none => rfl
    | some s' => exact run_units ts s'

/-- The same text by its units. -/
theorem parse_units (cs : List ℕ) : parse (cs.flatMap unitCodes) = (parse cs).map Tree.units := by
  have hlex : lex .between (cs.flatMap unitCodes) = (lex .between cs).map (List.map Token.units) := lex_units cs .between
  rw [parse, parse, hlex]
  cases lex .between cs with
  | none => rfl
  | some ts =>
    have hrun := run_units ts ⟨[], .value⟩
    have hstart : State.units ⟨[], .value⟩ = ⟨[], .value⟩ := rfl
    rw [hstart] at hrun
    simp only [Option.map_some, Option.bind_some, hrun]
    cases run ⟨[], .value⟩ ts with
    | none => rfl
    | some s =>
      obtain ⟨stack, want⟩ := s
      cases want <;> rfl

end JsonText
