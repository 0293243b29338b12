import KyNotes.Cleanup.Slots
import KyNotes.Lib.JsonText
import Mathlib.Data.List.DropRight

/-!
# The text of a cleanup record (`internal/storage/cleanup_slots.go`)

The JSON of a record, in the encoding of the database and with spaces after it, and what it decodes to. A Go string is any
bytes; `encoding/json` writes U+FFFD in the place of each byte that is no UTF-8.

`padCleanupJSON_encode`: a text that fits is padded to the size. `unmarshal_chars`: the JSON of a record reads back as that
record, whatever spaces come after it.
-/

namespace KyNotes.Cleanup.Stored

open Check

/-- `cleanupRecord`, of Go strings. -/
structure Record where
  actor : Bytes
  request : Bytes
  time : Bytes

/-- The bytes of an ASCII text. -/
def ascii (s : String) : Bytes := s.toList.map fun c => UInt8.ofNat c.toNat

/-! ## `encoding/json` -/

/-- What `json.Marshal` escapes by its number, without control characters. -/
def isHtml (c : Char) : Bool := ['<', '>', '&', '\u2028', '\u2029'].contains c

def jsonItem : Option Char → JsonText.Item
  | none => .unit 0xfffd
  | some c =>
    if (JsonText.shortOf.lookup c.toNat).isSome then .char c.toNat
    else if c.toNat < 0x20 ∨ isHtml c then .unit c.toNat
    else .char c.toNat

def jsonString (s : Bytes) : List JsonText.Item := (Utf8.runes s).map jsonItem

def Record.tree (r : Record) : JsonText.Tree :=
  .obj [(jsonString (ascii "actor"), .str (jsonString r.actor)), (jsonString (ascii "request"), .str (jsonString r.request)),
    (jsonString (ascii "at"), .str (jsonString r.time))]

/-- `json.Marshal`. -/
def Record.marshal (r : Record) : Bytes := Utf8.encode (r.tree.print.map Char.ofNat)

/-- A string of Go; half of a surrogate pair is read as U+FFFD. -/
def goString : List JsonText.Item → List Char
  | [] => []
  | .char c :: s => Char.ofNat c :: goString s
  | [.unit u] => [Utf16.lone (UInt16.ofNat u)]
  | .unit u :: .char c :: s => Utf16.lone (UInt16.ofNat u) :: goString (.char c :: s)
  | .unit u :: .unit v :: s =>
    if Utf16.isHigh (UInt16.ofNat u) ∧ Utf16.isLow (UInt16.ofNat v) then
      Utf16.pair (UInt16.ofNat u) (UInt16.ofNat v) :: goString s
    else Utf16.lone (UInt16.ofNat u) :: goString (.unit v :: s)

/-- The record of `VerifyCleanupReservations`. -/
structure Decoded where
  actor : Option (List Char) := none
  request : Option (List Char) := none
  time : Option (List Char) := none
deriving DecidableEq

/-- `foldRune`, of what is equal to an ASCII letter. -/
def foldRune (c : Char) : Char :=
  if 'a' ≤ c ∧ c ≤ 'z' then Char.ofNat (c.toNat - 32) else if c = '\u017f' then 'S' else if c = '\u212a' then 'K' else c

/-- A member of the object into the field of its name; nothing for a value that is neither a string nor `null`. -/
def setMember (r : Decoded) (m : List JsonText.Item × JsonText.Tree) : Option Decoded :=
  let key := (goString m.1).map foldRune
  let value := match m.2 with
    | .str s => some (some (goString s))
    | .null => some none
    | _ => none
  if key = "ACTOR".toList then value.map fun v => { r with actor := v }
  else if key = "REQUEST".toList then value.map fun v => { r with request := v }
  else if key = "AT".toList then value.map fun v => { r with time := v }
  else some r

/-- `json.Unmarshal`; nothing where it fails. -/
def unmarshal (decoded : Bytes) : Option Decoded :=
  match JsonText.parse ((Utf8.text decoded).map Char.toNat) with
  | some (.obj members) => members.foldlM setMember {}
  | some .null => some {}
  | _ => none

/-! ## The encoding of the database -/

/-- `order.PutUint16`. -/
def putUnit (e : Encoding) (u : UInt16) : Bytes :=
  let low := UInt8.ofNat (u.toNat % 256)
  let high := UInt8.ofNat (u.toNat / 256)
  match e with
  | .utf16be => [high, low]
  | _ => [low, high]

/-- A Go string in the encoding. -/
def encodeText (e : Encoding) (s : Bytes) : Bytes :=
  match e with
  | .utf8 => s
  | .utf16le | .utf16be => ((Utf8.text s).flatMap Utf16.units).flatMap (putUnit e)

def getUnits (e : Encoding) : Bytes → List UInt16
  | a :: b :: s =>
    (match e with
      | .utf16be => UInt16.ofNat (a.toNat * 256 + b.toNat)
      | _ => UInt16.ofNat (b.toNat * 256 + a.toNat)) :: getUnits e s
  | _ => []

def padCleanupJSON (raw : Bytes) (size : ℕ) (e : Encoding) : Except Err Bytes := do
  let raw := encodeText e raw
  let space := encodeText e [32]
  require (raw.length ≤ size ∧ (size - raw.length) % space.length = 0) .internal
  pure (raw ++ (List.replicate ((size - raw.length) / space.length) space).flatten)

def decodeCleanupJSON (raw : Bytes) (e : Encoding) : Except Err Bytes :=
  match e with
  | .utf8 => .ok raw
  | .utf16le | .utf16be => do
    require (raw.length % 2 = 0) .internal
    pure (Utf8.encode (Utf16.scalars (getUnits e raw)))

/-- `unicode.IsSpace`. -/
def isSpace (c : Char) : Bool :=
  ['\t', '\n', '\x0b', '\x0c', '\r', ' ', '\u0085', '\u00a0', '\u1680', '\u2028', '\u2029', '\u202f', '\u205f',
    '\u3000'].contains c || ('\u2000' ≤ c && c ≤ '\u200a')

/-- `bytes.TrimSpace`, of what is compared. -/
def trimSpace (s : Bytes) : List Char := ((Utf8.text s).dropWhile isSpace).rdropWhile isSpace

/-! ## Texts in an encoding -/

/-- A text in the encoding. -/
def encodeChars (e : Encoding) (cs : List Char) : Bytes :=
  match e with
  | .utf8 => Utf8.encode cs
  | .utf16le | .utf16be => (cs.flatMap Utf16.units).flatMap (putUnit e)

theorem encodeText_encode (e : Encoding) (cs : List Char) : encodeText e (Utf8.encode cs) = encodeChars e cs := by
  cases e with
  | utf8 => rfl
  | utf16le | utf16be => rw [encodeText, Utf8.text_encode, encodeChars]

theorem encodeChars_append (e : Encoding) (cs ds : List Char) :
    encodeChars e (cs ++ ds) = encodeChars e cs ++ encodeChars e ds := by
  cases e <;> simp [encodeChars, Utf8.encode]

theorem length_flatMap_putUnit (e : Encoding) (us : List UInt16) : (us.flatMap (putUnit e)).length = 2 * us.length := by
  induction us with
  | nil => rfl
  | cons u us ih =>
    have hu : (putUnit e u).length = 2 := by cases e <;> rfl
    rw [List.flatMap_cons, List.length_append, ih, hu, List.length_cons]
    omega

theorem length_encodeChars (e : Encoding) (cs : List Char) : (encodeChars e cs).length = (cs.map e.bytes).sum := by
  induction cs with
  | nil => cases e <;> rfl
  | cons c cs ih =>
    rw [← List.singleton_append, encodeChars_append, List.length_append, ih, List.map_append, List.sum_append]
    congr 1
    cases e with
    | utf8 => simp [encodeChars, Utf8.encode, Encoding.bytes]
    | utf16le | utf16be =>
      simp only [encodeChars, List.flatMap_singleton, length_flatMap_putUnit, List.map_singleton, List.sum_singleton]
      rfl

theorem getUnits_putUnit {e : Encoding} (he : e ≠ .utf8) (us : List UInt16) : getUnits e (us.flatMap (putUnit e)) = us := by
  induction us with
  | nil => rfl
  | cons u us ih =>
    have hlt := u.toNat_lt
    have hlow : (UInt8.ofNat (u.toNat % 256)).toNat = u.toNat % 256 := by
      rw [UInt8.toNat_ofNat']
      omega
    have hhigh : (UInt8.ofNat (u.toNat / 256)).toNat = u.toNat / 256 := by
      rw [UInt8.toNat_ofNat']
      omega
    have hsum : u.toNat / 256 * 256 + u.toNat % 256 = u.toNat := by omega
    rw [List.flatMap_cons]
    cases e with
    | utf8 => exact absurd rfl he
    | utf16le | utf16be =>
      simp only [putUnit, List.cons_append, List.nil_append, getUnits, ih, hlow, hhigh, hsum, UInt16.ofNat_toNat]

/-- A text in the encoding decodes to its UTF-8. -/
theorem decodeCleanupJSON_encodeChars (e : Encoding) (cs : List Char) :
    decodeCleanupJSON (encodeChars e cs) e = .ok (Utf8.encode cs) := by
  have hutf16 : ∀ e : Encoding, e ≠ .utf8 →
      (require (((cs.flatMap Utf16.units).flatMap (putUnit e)).length % 2 = 0) Err.internal >>= fun _ =>
        pure (Utf8.encode (Utf16.scalars (getUnits e ((cs.flatMap Utf16.units).flatMap (putUnit e)))))) =
        (.ok (Utf8.encode cs) : Except Err Bytes) := by
    intro e he
    rw [require, if_pos (by rw [length_flatMap_putUnit]; omega), getUnits_putUnit he, Utf16.scalars_flatMap]
    rfl
  cases e with
  | utf8 => rfl
  | utf16le => exact hutf16 .utf16le (by decide)
  | utf16be => exact hutf16 .utf16be (by decide)

theorem encodeText_space (e : Encoding) : encodeText e [32] = encodeChars e [' '] := by
  have hspace : ([32] : Bytes) = Utf8.encode [' '] := by decide
  rw [hspace, encodeText_encode]

theorem length_space (e : Encoding) : (encodeChars e [' ']).length = e.unit := by
  rw [length_encodeChars]
  cases e <;> decide

theorem encodeChars_replicate (e : Encoding) (k : ℕ) :
    encodeChars e (List.replicate k ' ') = (List.replicate k (encodeChars e [' '])).flatten := by
  induction k with
  | zero => cases e <;> rfl
  | succ k ih =>
    rw [List.replicate_succ, ← List.singleton_append, encodeChars_append, ih, List.replicate_succ, List.flatten_cons]

theorem unit_dvd_length (e : Encoding) (cs : List Char) : e.unit ∣ (encodeChars e cs).length := by
  cases e with
  | utf8 => exact Nat.one_dvd _
  | utf16le | utf16be =>
    rw [encodeChars, length_flatMap_putUnit]
    exact Nat.dvd_mul_right ..

/-- A text that fits is padded with spaces to the size. -/
theorem padCleanupJSON_encode {e : Encoding} {cs : List Char} {size : ℕ} (hle : (encodeChars e cs).length ≤ size)
    (hdvd : e.unit ∣ size) : ∃ k, padCleanupJSON (Utf8.encode cs) size e = .ok (encodeChars e (cs ++ List.replicate k ' ')) ∧
      (encodeChars e (cs ++ List.replicate k ' ')).length = size := by
  have hrest : e.unit ∣ size - (encodeChars e cs).length := Nat.dvd_sub hdvd (unit_dvd_length e cs)
  refine ⟨(size - (encodeChars e cs).length) / e.unit, ?_, ?_⟩
  · rw [padCleanupJSON]
    simp only [encodeText_encode, encodeText_space, length_space]
    rw [require, if_pos ⟨hle, Nat.mod_eq_zero_of_dvd hrest⟩, encodeChars_append, encodeChars_replicate]
    rfl
  · rw [encodeChars_append, List.length_append, encodeChars_replicate, List.length_flatten, List.map_replicate,
      List.sum_replicate_nat, length_space, Nat.div_mul_cancel hrest]
    omega

/-! ## The text of a record -/

/-- The three forms of a character in a string. -/
theorem jsonItem_cases (c : Char) : jsonItem (some c) = .char c.toNat ∧ (JsonText.Item.char c.toNat).Printable ∨
    jsonItem (some c) = .unit c.toNat ∧ (c.toNat < 0x20 ∨ isHtml c = true) := by
  by_cases hshort : (JsonText.shortOf.lookup c.toNat).isSome
  · exact .inl ⟨if_pos hshort, Or.inr hshort⟩
  · have hitem : jsonItem (some c) = if c.toNat < 0x20 ∨ isHtml c then .unit c.toNat else .char c.toNat := if_neg hshort
    by_cases hnumber : c.toNat < 0x20 ∨ isHtml c = true
    · exact .inr ⟨hitem.trans (if_pos hnumber), hnumber⟩
    · exact .inl ⟨hitem.trans (if_neg hnumber), Or.inl (Nat.le_of_not_lt fun h => hnumber (.inl h))⟩

/-- What is written by its number is no surrogate. -/
theorem number_lt {c : Char} (h : c.toNat < 0x20 ∨ isHtml c = true) : c.toNat < 0xd800 := by
  rcases h with h | h
  · exact Nat.lt_trans h (by decide)
  · have hall : ['<', '>', '&', '\u2028', '\u2029'].all (fun d => decide (d.toNat < 0xd800)) = true := by decide
    exact of_decide_eq_true (List.all_eq_true.mp hall c (List.contains_iff_mem.mp h))

theorem jsonItem_printable (r : Option Char) : (jsonItem r).Printable := by
  cases r with
  | none => exact (by decide : 0xfffd < 65536)
  | some c =>
    rcases jsonItem_cases c with ⟨hitem, hprint⟩ | ⟨hitem, hnumber⟩
    · exact hitem ▸ hprint
    · rw [hitem]
      exact Nat.lt_trans (number_lt hnumber) (by decide)

theorem jsonString_printable (s : Bytes) : ∀ i ∈ jsonString s, i.Printable := by
  intro i hi
  obtain ⟨r, -, rfl⟩ := List.mem_map.mp hi
  exact jsonItem_printable r

theorem tree_printable (r : Record) : r.tree.Printable :=
  ⟨jsonString_printable _, jsonString_printable _, jsonString_printable _, jsonString_printable _,
    jsonString_printable _, jsonString_printable _, trivial⟩

/-- The codes of characters. -/
def AreChars (ns : List ℕ) : Prop := ∀ n ∈ ns, (Char.ofNat n).toNat = n

theorem AreChars.append {ns ms : List ℕ} (hn : AreChars ns) (hm : AreChars ms) : AreChars (ns ++ ms) :=
  fun n h => (List.mem_append.mp h).elim (hn n) (hm n)

theorem toNat_ofNat {n : ℕ} (h : n.isValidChar) : (Char.ofNat n).toNat = n := by
  rw [Char.ofNat, dif_pos h]
  rfl

theorem AreChars.ascii {ns : List ℕ} (h : ∀ n ∈ ns, n < 128) : AreChars ns :=
  fun n hn => toNat_ofNat (.inl (Nat.lt_trans (h n hn) (by decide)))

theorem areChars_item (r : Option Char) : AreChars (jsonItem r).print := by
  have hunit : ∀ u, AreChars (JsonText.Item.unit u).print := fun u => AreChars.ascii fun n => JsonText.hex4_lt
  cases r with
  | none => exact hunit _
  | some c =>
    rcases jsonItem_cases c with ⟨hitem, -⟩ | ⟨hitem, -⟩
    · rw [hitem]
      cases hshort : JsonText.shortOf.lookup c.toNat with
      | some e =>
        have hprint : (JsonText.Item.char c.toNat).print = [92, e] := by simp [JsonText.Item.print, hshort]
        rw [hprint]
        exact AreChars.ascii (List.forall_mem_cons.mpr ⟨by decide, List.forall_mem_singleton.mpr (JsonText.short_lt hshort)⟩)
      | none =>
        have hprint : (JsonText.Item.char c.toNat).print = [c.toNat] := by simp [JsonText.Item.print, hshort]
        rw [hprint]
        intro n hn
        rw [List.mem_singleton.mp hn, Char.ofNat_toNat]
    · rw [hitem]
      exact hunit _

theorem areChars_quote (s : Bytes) : AreChars (JsonText.quote (jsonString s)) := by
  have hitems : AreChars ((jsonString s).flatMap JsonText.Item.print) := by
    intro n hn
    obtain ⟨i, hi, hn⟩ := List.mem_flatMap.mp hn
    obtain ⟨r, -, rfl⟩ := List.mem_map.mp hi
    exact areChars_item r n hn
  have hmark : AreChars [34] := AreChars.ascii (by decide)
  exact hmark.append (hitems.append hmark)

/-- The text of the JSON of a record. -/
theorem print_tree (r : Record) : r.tree.print =
    [123] ++ (JsonText.quote (jsonString (ascii "actor")) ++ ([58] ++ (JsonText.quote (jsonString r.actor) ++
      ([44] ++ (JsonText.quote (jsonString (ascii "request")) ++ ([58] ++ (JsonText.quote (jsonString r.request) ++
      ([44] ++ (JsonText.quote (jsonString (ascii "at")) ++ ([58] ++ (JsonText.quote (jsonString r.time) ++ [125]))))))))))) := by
  simp [Record.tree, JsonText.Tree.print, JsonText.printMembers]

theorem areChars_tree (r : Record) : AreChars r.tree.print := by
  have hone : ∀ n < 128, AreChars [n] := fun n hn => AreChars.ascii (by simpa using hn)
  rw [print_tree]
  repeat' apply AreChars.append
  all_goals first | exact areChars_quote _ | exact hone _ (by decide)

/-- The characters of the JSON of a record. -/
def Record.chars (r : Record) : List Char := r.tree.print.map Char.ofNat

theorem codes_chars (r : Record) : r.chars.map Char.toNat = r.tree.print := by
  rw [Record.chars, List.map_map]
  exact (List.map_congr_left fun n hn => areChars_tree r n hn).trans (List.map_id _)

/-! ## Reading a record -/

theorem lone_eq {u : ℕ} (h : u < 0xd800) : Utf16.lone (UInt16.ofNat u) = Char.ofNat u := by
  have hu : (UInt16.ofNat u).toNat = u := by
    rw [UInt16.toNat_ofNat']
    omega
  have hsurrogate : ¬(Utf16.isHigh (UInt16.ofNat u) = true ∨ Utf16.isLow (UInt16.ofNat u) = true) := by
    simp only [Utf16.isHigh, Utf16.isLow, hu, decide_eq_true_eq]
    omega
  rw [Utf16.lone, if_neg hsurrogate, hu]

theorem goString_unit {u : ℕ} (h : Utf16.isHigh (UInt16.ofNat u) = false) (s : List JsonText.Item) :
    goString (.unit u :: s) = Utf16.lone (UInt16.ofNat u) :: goString s := by
  cases s with
  | nil => rfl
  | cons i s =>
    cases i with
    | char c => rfl
    | unit v => rw [goString, if_neg (by rw [h]; exact fun h => absurd h.1 Bool.false_ne_true)]

/-- A string reads back with U+FFFD in the place of what is no UTF-8. -/
theorem goString_jsonString (s : Bytes) : goString (jsonString s) = Utf8.text s := by
  unfold jsonString Utf8.text
  induction Utf8.runes s with
  | nil => rfl
  | cons r rs ih =>
    rw [List.map_cons, List.map_cons, ← ih]
    cases r with
    | none => exact goString_unit (by decide) _
    | some c =>
      rcases jsonItem_cases c with ⟨hitem, -⟩ | ⟨hitem, hnumber⟩
      · rw [hitem, goString, Char.ofNat_toNat]
        rfl
      · have hlt := number_lt hnumber
        have hhigh : Utf16.isHigh (UInt16.ofNat c.toNat) = false := by
          simp only [Utf16.isHigh, UInt16.toNat_ofNat', decide_eq_false_iff_not]
          omega
        rw [hitem, goString_unit hhigh, lone_eq hlt, Char.ofNat_toNat]
        rfl

/-- The name of a field matches a key of it, and no other. -/
theorem setMember_key (r : Decoded) (key s : Bytes) :
    setMember r (jsonString key, .str (jsonString s)) =
      if (Utf8.text key).map foldRune = "ACTOR".toList then some { r with actor := some (Utf8.text s) }
      else if (Utf8.text key).map foldRune = "REQUEST".toList then some { r with request := some (Utf8.text s) }
      else if (Utf8.text key).map foldRune = "AT".toList then some { r with time := some (Utf8.text s) }
      else some r := by
  simp only [setMember, goString_jsonString, Option.map_some]

/-- The JSON of a record, also with spaces after it, is that record. -/
theorem unmarshal_chars (r : Record) (k : ℕ) : unmarshal (Utf8.encode (r.chars ++ List.replicate k ' ')) =
    some ⟨some (Utf8.text r.actor), some (Utf8.text r.request), some (Utf8.text r.time)⟩ := by
  have hspaces : ∀ n ∈ List.replicate k 32, JsonText.isSpace n = true := by
    intro n hn
    rw [List.eq_of_mem_replicate hn]
    rfl
  have hcodes : (r.chars ++ List.replicate k ' ').map Char.toNat = r.tree.print ++ List.replicate k 32 := by
    rw [List.map_append, codes_chars, List.map_replicate]
    rfl
  have hactor : Utf8.text (ascii "actor") = "actor".toList := Utf8.text_encode "actor".toList
  have hrequest : Utf8.text (ascii "request") = "request".toList := Utf8.text_encode "request".toList
  have hat : Utf8.text (ascii "at") = "at".toList := Utf8.text_encode "at".toList
  rw [unmarshal, Utf8.text_encode, hcodes, JsonText.parse_print (tree_printable r) hspaces]
  simp only [Record.tree, List.foldlM_cons, List.foldlM_nil, setMember_key, hactor, hrequest, hat]
  rfl

/-- An empty slot is recognized. -/
theorem trimSpace_null (k : ℕ) : trimSpace (Utf8.encode ("null".toList ++ List.replicate k ' ')) = "null".toList := by
  rw [trimSpace, Utf8.text_encode]
  have hhead : ("null".toList ++ List.replicate k ' ').dropWhile isSpace = "null".toList ++ List.replicate k ' ' := rfl
  rw [hhead]
  induction k with
  | zero => decide
  | succ k ih => rw [List.replicate_succ', ← List.append_assoc, List.rdropWhile_concat_pos _ _ _ (by decide), ih rfl]

end KyNotes.Cleanup.Stored
