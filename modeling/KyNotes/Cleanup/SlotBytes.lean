import KyNotes.Cleanup.SlotText
import KyNotes.Lib.Calendar
import Mathlib.Algebra.Order.BigOperators.Group.List
import Mathlib.Data.Nat.Digits.Lemmas

/-!
# The bytes of a slot (`internal/storage/cleanup_slots.go`)

A slot is reserved with a size from the longest user ID, and filled once. SQLite measures an ID in the encoding of the
database.

`audit_records_fit`: a record of an actor that is no longer than the longest user ID, of a request ID within its limit and
of a time fits the slot, and is what the slot decodes to. `length_chars_eq_recordBytes` and `slotSize_minted` are the sizes
of `Cleanup/Slots.lean`, whose IDs are minted.
-/

namespace KyNotes.Cleanup.Stored

open Check

/-! ## Slots -/

/-- `MAX(30,COALESCE(MAX(length(CAST(id AS BLOB))),0))`, of the IDs as they are stored. -/
def actorBytes (ids : List Bytes) : ℕ := max 30 ((ids.map List.length).foldr max 0)

def cleanupSlotBytes (budget : ℕ) (e : Encoding) (ids : List Bytes) : Except Err ℕ := do
  let empty := Record.marshal ⟨[], [], ascii "2000-01-01T00:00:00Z"⟩
  -- Any input byte needs at most six JSON bytes
  let n := empty.length + 6 * (actorBytes ids + maxAuditRequestIDBytes)
  let n := (n + 63) / 64 * 64
  let n := if e = .utf8 then n else n * 2
  require (n ≤ budget) .internal
  pure n

/-- The payload that `ReserveCleanupAuditTx` inserts. -/
def reserve (budget : ℕ) (e : Encoding) (ids : List Bytes) : Except Err Bytes := do
  let size ← cleanupSlotBytes budget e ids
  padCleanupJSON (ascii "null") size e

/-- The payload that `FillCleanupAuditTx` stores in the place of one. -/
def fill (e : Encoding) (payload : Bytes) (r : Record) : Except Err Bytes := do
  require (r.request.length ≤ maxAuditRequestIDBytes ∧ r.time.length = 20) .internal
  let decoded ← decodeCleanupJSON payload e
  require (trimSpace decoded = "null".toList) .internal
  padCleanupJSON r.marshal payload.length e

/-- The record of a payload. -/
def decode (e : Encoding) (payload : Bytes) : Option Decoded :=
  match decodeCleanupJSON payload e with
  | .ok decoded => unmarshal decoded
  | .error _ => none

/-! ## Times -/

/-- `appendInt` of `time`: with a sign where it is negative, and zeros up to the width. -/
def appendInt (x : ℤ) (width : ℕ) : Bytes :=
  let u := (Nat.digits 10 x.natAbs).reverse.map fun d => UInt8.ofNat (48 + d)
  (if x < 0 then [45] else []) ++ (List.replicate (width - u.length) 48 ++ u)

/-- A time to the second, in UTC. -/
structure Time where
  date : Calendar.Date
  hour : ℕ
  minute : ℕ
  second : ℕ
  hour_lt : hour < 24
  minute_lt : minute < 60
  second_lt : second < 60

/-- `CleanupTime`: the layout `2006-01-02T15:04:05Z`. -/
def cleanupTime (t : Time) : Bytes :=
  appendInt t.date.year 4 ++ (45 :: (appendInt t.date.month 2 ++ (45 :: (appendInt t.date.day 2 ++ (84 ::
    (appendInt t.hour 2 ++ (58 :: (appendInt t.minute 2 ++ (58 :: (appendInt t.second 2 ++ [90]))))))))))

/-- A character that JSON has as it is, in one byte. -/
def Plain (b : UInt8) : Prop := 32 ≤ b.toNat ∧ b.toNat < 128 ∧ b.toNat ∉ [34, 38, 60, 62, 92]

instance : DecidablePred Plain := fun _ => inferInstanceAs (Decidable (_ ∧ _ ∧ _))

theorem plain_of_all {s : Bytes} (h : s.all (fun b => decide (Plain b)) = true) : ∀ b ∈ s, Plain b :=
  fun b hb => of_decide_eq_true (List.all_eq_true.mp h b hb)

/-- The fixed width of a time, of characters that JSON has as they are. -/
structure IsTime (now : Bytes) : Prop where
  length_eq : now.length = 20
  plain : ∀ b ∈ now, Plain b

/-! ## The size of a record -/

/-- The bytes that a string takes in JSON. -/
def stringBytes (e : Encoding) (s : Bytes) : ℕ := ((Utf8.runes s).map (escapedBytes e)).sum

/-- The bytes of the characters of some codes. -/
def codeBytes (e : Encoding) (ns : List ℕ) : ℕ := (ns.map fun n => e.bytes (Char.ofNat n)).sum

theorem codeBytes_append (e : Encoding) (ns ms : List ℕ) : codeBytes e (ns ++ ms) = codeBytes e ns + codeBytes e ms := by
  rw [codeBytes, List.map_append, List.sum_append]
  rfl

theorem bytes_ascii (e : Encoding) {n : ℕ} (h : n < 128) : e.bytes (Char.ofNat n) = e.unit := by
  have hn : (Char.ofNat n).toNat = n := toNat_ofNat (.inl (Nat.lt_trans h (by decide)))
  cases e with
  | utf8 =>
    have hsize : (Char.ofNat n).utf8Size = 1 := Char.utf8Size_eq_one_iff.mpr (by
      rw [UInt32.le_iff_toNat_le]
      exact hn.trans_le (Nat.le_of_lt_succ h))
    exact hsize
  | utf16le | utf16be =>
    have hunits : (Utf16.units (Char.ofNat n)).length = 1 := by
      rw [Utf16.units, if_pos (by rw [hn]; omega)]
      rfl
    rw [Encoding.bytes, hunits]
    rfl

theorem codeBytes_ascii (e : Encoding) {ns : List ℕ} (h : ∀ n ∈ ns, n < 128) : codeBytes e ns = e.unit * ns.length := by
  induction ns with
  | nil => rfl
  | cons n ns ih =>
    rw [List.forall_mem_cons] at h
    have hcons : codeBytes e (n :: ns) = e.bytes (Char.ofNat n) + codeBytes e ns := rfl
    rw [hcons, bytes_ascii e h.1, ih h.2, List.length_cons, Nat.mul_succ, Nat.add_comm]

/-- What `json.Marshal` escapes by a letter. -/
theorem mem_short (c : Char) :
    c ∈ ['"', '\\', '\x08', '\x0c', '\n', '\r', '\t'] ↔ (JsonText.shortOf.lookup c.toNat).isSome = true := by
  have hkeys : ['"', '\\', '\x08', '\x0c', '\n', '\r', '\t'].map Char.toNat = JsonText.shortOf.map Prod.fst := rfl
  rw [List.lookup_isSome_iff, ← List.mem_map_of_injective fun c d => Char.toNat_inj.mp, hkeys, List.mem_map]
  constructor
  · rintro ⟨p, hp, heq⟩
    exact ⟨p, hp, beq_iff_eq.mpr heq.symm⟩
  · rintro ⟨p, hp, heq⟩
    exact ⟨p, hp, (beq_iff_eq.mp heq).symm⟩

theorem escaped_some (c : Char) : escaped (some c) =
    if (JsonText.shortOf.lookup c.toNat).isSome then some 2 else if c.toNat < 0x20 ∨ isHtml c then some 6 else none := by
  have hhtml : c ∈ ['<', '>', '&', '\u2028', '\u2029'] ↔ isHtml c = true := List.contains_iff_mem.symm
  simp only [escaped, mem_short, hhtml]

/-- The bytes that a character takes in JSON are those of what is written for it. -/
theorem codeBytes_item (e : Encoding) (r : Option Char) : codeBytes e (jsonItem r).print = escapedBytes e r := by
  have hunit : ∀ u, codeBytes e (JsonText.Item.unit u).print = e.unit * 6 := fun u => codeBytes_ascii e fun n => JsonText.hex4_lt
  cases r with
  | none => exact hunit _
  | some c =>
    rw [escapedBytes, escaped_some, jsonItem]
    by_cases hshort : (JsonText.shortOf.lookup c.toNat).isSome = true
    · obtain ⟨d, hd⟩ := Option.isSome_iff_exists.mp hshort
      have hprint : (JsonText.Item.char c.toNat).print = [92, d] := by simp only [JsonText.Item.print, hd]
      rw [if_pos hshort, if_pos hshort, hprint]
      exact codeBytes_ascii e (List.forall_mem_cons.mpr ⟨by decide, List.forall_mem_singleton.mpr (JsonText.short_lt hd)⟩)
    · rw [if_neg hshort, if_neg hshort]
      by_cases hnumber : c.toNat < 0x20 ∨ isHtml c = true
      · rw [if_pos hnumber, if_pos hnumber]
        exact hunit _
      · have hlookup : JsonText.shortOf.lookup c.toNat = none := Option.not_isSome_iff_eq_none.mp hshort
        have hprint : (JsonText.Item.char c.toNat).print = [c.toNat] := by simp only [JsonText.Item.print, hlookup]
        rw [if_neg hnumber, if_neg hnumber, hprint, codeBytes, List.map_singleton, List.sum_singleton, Char.ofNat_toNat]
        rfl

theorem codeBytes_quote (e : Encoding) (s : Bytes) :
    codeBytes e (JsonText.quote (jsonString s)) = e.unit * 2 + stringBytes e s := by
  have hitems : codeBytes e ((jsonString s).flatMap JsonText.Item.print) = stringBytes e s := by
    unfold jsonString stringBytes
    induction Utf8.runes s with
    | nil => rfl
    | cons r rs ih => rw [List.map_cons, List.flatMap_cons, codeBytes_append, codeBytes_item, ih, List.map_cons, List.sum_cons]
  have hmark : codeBytes e [34] = e.unit := bytes_ascii e (by decide)
  have hquote : JsonText.quote (jsonString s) = [34] ++ ((jsonString s).flatMap JsonText.Item.print ++ [34]) := rfl
  rw [hquote, codeBytes_append, codeBytes_append, hitems, hmark]
  omega

theorem utf8EncodeChar_ascii {b : UInt8} (h : b.toNat < 128) : String.utf8EncodeChar (Char.ofNat b.toNat) = [b] := by
  have hb : (Char.ofNat b.toNat).toNat = b.toNat := toNat_ofNat (.inl (Nat.lt_trans h (by decide)))
  have hval : (Char.ofNat b.toNat).val.toNat = b.toNat := hb
  simp [String.utf8EncodeChar, hval, Nat.le_of_lt_succ h]

/-- A string of ASCII characters is read byte by byte. -/
theorem runes_ascii {s : Bytes} (h : ∀ b ∈ s, b.toNat < 128) : Utf8.runes s = s.map fun b => some (Char.ofNat b.toNat) := by
  have hs : s = Utf8.encode (s.map fun b => Char.ofNat b.toNat) := by
    induction s with
    | nil => rfl
    | cons b s ih =>
      rw [List.forall_mem_cons] at h
      have hcons : Utf8.encode ((b :: s).map fun b => Char.ofNat b.toNat) =
        String.utf8EncodeChar (Char.ofNat b.toNat) ++ Utf8.encode (s.map fun b => Char.ofNat b.toNat) := rfl
      rw [hcons, utf8EncodeChar_ascii h.1, ← ih h.2]
      rfl
  rw [hs, Utf8.runes_encode, ← hs, List.map_map]
  rfl

theorem escapedBytes_plain (e : Encoding) {b : UInt8} (h : Plain b) : escapedBytes e (some (Char.ofNat b.toNat)) = e.unit := by
  have hall : ∀ n < 128, 32 ≤ n → n ∉ [34, 38, 60, 62, 92] → escaped (some (Char.ofNat n)) = none := by decide +kernel
  rw [escapedBytes, hall b.toNat h.2.1 h.1 h.2.2]
  exact bytes_ascii e h.2.1

/-- A string of characters that JSON has as they are. -/
theorem stringBytes_plain (e : Encoding) {s : Bytes} (h : ∀ b ∈ s, Plain b) : stringBytes e s = e.unit * s.length := by
  have hmap : s.map (escapedBytes e ∘ fun b => some (Char.ofNat b.toNat)) = s.map fun _ => e.unit :=
    List.map_congr_left fun b hb => escapedBytes_plain e (h b hb)
  rw [stringBytes, runes_ascii fun b hb => (h b hb).2.1, List.map_map, hmap, List.map_const', List.sum_replicate_nat,
    Nat.mul_comm]

/-- The size of a record before it is padded. -/
theorem length_chars (e : Encoding) (r : Record) : (encodeChars e r.chars).length =
    e.unit * 33 + stringBytes e r.actor + stringBytes e r.request + stringBytes e r.time := by
  have hcode : (encodeChars e r.chars).length = codeBytes e r.tree.print := by
    rw [length_encodeChars, Record.chars, List.map_map]
    rfl
  have hactor : stringBytes e (ascii "actor") = e.unit * 5 := stringBytes_plain e (plain_of_all (by decide))
  have hrequest : stringBytes e (ascii "request") = e.unit * 7 := stringBytes_plain e (plain_of_all (by decide))
  have hat : stringBytes e (ascii "at") = e.unit * 2 := stringBytes_plain e (plain_of_all (by decide))
  have hone : ∀ n < 128, codeBytes e [n] = e.unit := fun n hn => bytes_ascii e hn
  rw [hcode, print_tree]
  simp only [codeBytes_append, codeBytes_quote, hactor, hrequest, hat, hone 123 (by decide), hone 58 (by decide),
    hone 44 (by decide), hone 125 (by decide)]
  omega

theorem length_marshal_empty : (Record.marshal ⟨[], [], ascii "2000-01-01T00:00:00Z"⟩).length = emptyBytes := by
  have hchars := length_chars .utf8 ⟨[], [], ascii "2000-01-01T00:00:00Z"⟩
  have htime : stringBytes .utf8 (ascii "2000-01-01T00:00:00Z") = 20 := stringBytes_plain .utf8 (plain_of_all (by decide))
  rw [htime] at hchars
  exact hchars

/-- `recordBytes` is the size of the record of an ID that was minted. -/
theorem length_chars_eq_recordBytes (e : Encoding) {r : Record} (hlength : r.actor.length = idBytes)
    (hactor : ∀ b ∈ r.actor, Plain b) (htime : IsTime r.time) : (encodeChars e r.chars).length = recordBytes e r.request := by
  rw [length_chars, stringBytes_plain e hactor, stringBytes_plain e htime.plain, htime.length_eq, hlength, recordBytes,
    stringBytes]
  simp only [emptyBytes, idBytes]
  omega

theorem length_encodeText {e : Encoding} (he : e ≠ .utf8) (s : Bytes) :
    (encodeText e s).length = ((Utf8.runes s).map fun r => e.bytes (r.getD '\uFFFD')).sum := by
  have htext : encodeText e s = encodeChars e (Utf8.text s) := by
    cases e with
    | utf8 => exact absurd rfl he
    | utf16le | utf16be => rfl
  rw [htext, length_encodeChars, Utf8.text, List.map_map]
  rfl

theorem unit_le_bytes (e : Encoding) (c : Char) : e.unit ≤ e.bytes c := by
  have hunits : 0 < (Utf16.units c).length := by
    unfold Utf16.units
    split <;> exact Nat.succ_pos _
  have hsize := c.utf8Size_pos
  cases e <;> simp only [Encoding.unit, Encoding.bytes] <;> omega

theorem escapedBytes_le_stored (e : Encoding) (r : Option Char) : escapedBytes e r ≤ 6 * e.bytes (r.getD '\uFFFD') := by
  have hunit := unit_le_bytes e (r.getD '\uFFFD')
  unfold escapedBytes
  split
  · rename_i n hn
    calc e.unit * n ≤ e.unit * 6 := Nat.mul_le_mul_left _ (escaped_le hn)
      _ ≤ e.bytes (r.getD '\uFFFD') * 6 := Nat.mul_le_mul_right _ hunit
      _ = 6 * e.bytes (r.getD '\uFFFD') := Nat.mul_comm ..
  · cases r with
    | none => exact Nat.zero_le _
    | some c => exact Nat.le_mul_of_pos_left _ (by decide)

/-- The JSON of an ID no longer than another, as a string or as it is stored. -/
theorem stringBytes_le {e : Encoding} {s : Bytes} {n : ℕ} (h : s.length ≤ n ∨ (encodeText e s).length ≤ n) :
    stringBytes e s ≤ 6 * e.unit * n := by
  have hbytes : s.length ≤ n → stringBytes e s ≤ 6 * e.unit * n := fun hs =>
    (Utf8.sum_runes_le (escapedBytes_le e) s).trans (Nat.mul_le_mul_left _ hs)
  rcases h with h | h
  · exact hbytes h
  · by_cases he : e = .utf8
    · subst he
      exact hbytes h
    · have hpos : 1 ≤ e.unit := by cases e <;> decide
      have hstored : stringBytes e s ≤ 6 * (encodeText e s).length := by
        rw [length_encodeText he, stringBytes, ← List.sum_map_mul_left]
        exact List.sum_le_sum fun r _ => escapedBytes_le_stored e r
      calc stringBytes e s ≤ 6 * (encodeText e s).length := hstored
        _ ≤ 6 * n := Nat.mul_le_mul_left _ h
        _ ≤ 6 * e.unit * n := Nat.mul_le_mul_right _ (Nat.le_mul_of_pos_right _ hpos)

/-! ## The text of a time -/

theorem appendInt_plain (x : ℤ) (width : ℕ) : ∀ b ∈ appendInt x width, Plain b := by
  have hdigit : ∀ d < 10, Plain (UInt8.ofNat (48 + d)) := by decide
  intro b hb
  simp only [appendInt, List.mem_append, List.mem_map, List.mem_reverse, List.mem_replicate] at hb
  rcases hb with hb | ⟨-, rfl⟩ | ⟨d, hd, rfl⟩
  · split at hb
    · cases List.mem_singleton.mp hb
      decide
    · cases hb
  · decide
  · exact hdigit d (Nat.digits_lt_base (by decide) hd)

/-- Every time that is twenty characters long, of which the code asks the length only. -/
theorem cleanupTime_isTime {t : Time} (h : (cleanupTime t).length = 20) : IsTime (cleanupTime t) where
  length_eq := h
  plain := by
    have hmark : ∀ b ∈ [45, 84, 58, 90], Plain b := plain_of_all (by decide)
    simp only [cleanupTime, List.forall_mem_append, List.forall_mem_cons]
    exact ⟨appendInt_plain _ _, hmark 45 (by decide), appendInt_plain _ _, hmark 45 (by decide), appendInt_plain _ _,
      hmark 84 (by decide), appendInt_plain _ _, hmark 58 (by decide), appendInt_plain _ _, hmark 58 (by decide),
      appendInt_plain _ _, hmark 90 (by decide), List.forall_mem_nil _⟩

theorem length_appendInt {x : ℤ} {width : ℕ} (hx : 0 ≤ x) (hlt : x < 10 ^ width) : (appendInt x width).length = width := by
  have hdigits : (Nat.digits 10 x.natAbs).length ≤ width :=
    (Nat.digits_length_le_iff (by decide) x.natAbs).mpr (by
      zify
      rwa [abs_of_nonneg hx])
  simp only [appendInt, if_neg (Int.not_lt.mpr hx), List.nil_append, List.length_append, List.length_replicate, List.length_map,
    List.length_reverse]
  omega

/-- A time before the year 10000 is twenty characters long. -/
theorem length_cleanupTime {t : Time} (hpos : 0 ≤ t.date.year) (hlt : t.date.year < 10000) : (cleanupTime t).length = 20 := by
  have hmonth := t.date.month_le
  have hday : t.date.day ≤ 31 := t.date.day_le_31
  have hhour := t.hour_lt
  have hminute := t.minute_lt
  have hsecond := t.second_lt
  have htwo : ∀ n : ℕ, n < 100 → (appendInt n 2).length = 2 := fun n hn => length_appendInt (Int.natCast_nonneg n) (by omega)
  have hyear : (appendInt t.date.year 4).length = 4 := length_appendInt hpos hlt
  simp only [cleanupTime, List.length_append, List.length_cons, List.length_nil, hyear,
    htwo _ (by omega : t.date.month < 100), htwo _ (by omega : t.date.day < 100), htwo _ (by omega : t.hour < 100),
    htwo _ (by omega : t.minute < 100), htwo _ (by omega : t.second < 100)]

/-! ## The slot -/

/-- The bytes of a slot. -/
def slotSize (e : Encoding) (ids : List Bytes) : ℕ :=
  (emptyBytes + 6 * (actorBytes ids + maxAuditRequestIDBytes) + 63) / 64 * 64 * e.unit

theorem cleanupSlotBytes_ok {budget n : ℕ} {e : Encoding} {ids : List Bytes} :
    cleanupSlotBytes budget e ids = .ok n ↔ slotSize e ids ≤ budget ∧ slotSize e ids = n := by
  have hsize : (if e = .utf8 then (emptyBytes + 6 * (actorBytes ids + maxAuditRequestIDBytes) + 63) / 64 * 64
      else (emptyBytes + 6 * (actorBytes ids + maxAuditRequestIDBytes) + 63) / 64 * 64 * 2) = slotSize e ids := by
    cases e with
    | utf8 => exact (Nat.mul_one _).symm
    | utf16le | utf16be => rfl
  simp only [cleanupSlotBytes, bind_ok, require_ok, pure_ok, length_marshal_empty, hsize, exists_const]

theorem padCleanupJSON_null (e : Encoding) (ids : List Bytes) : ∃ k,
    padCleanupJSON (ascii "null") (slotSize e ids) e = .ok (encodeChars e ("null".toList ++ List.replicate k ' ')) ∧
      (encodeChars e ("null".toList ++ List.replicate k ' ')).length = slotSize e ids := by
  have hnull : (encodeChars e "null".toList).length = e.unit * 4 := by
    rw [length_encodeChars]
    cases e <;> decide
  have hpos : 4 ≤ (emptyBytes + 6 * (actorBytes ids + maxAuditRequestIDBytes) + 63) / 64 * 64 := by
    simp only [emptyBytes]
    omega
  have hle : (encodeChars e "null".toList).length ≤ slotSize e ids := by
    rw [hnull, slotSize, Nat.mul_comm]
    exact Nat.mul_le_mul_right _ hpos
  have hascii : ascii "null" = Utf8.encode "null".toList := by decide
  rw [hascii]
  exact padCleanupJSON_encode hle (Nat.dvd_mul_left ..)

/-- A slot is reserved while its size is within the budget. -/
theorem reserve_total {budget : ℕ} {e : Encoding} {ids : List Bytes} (h : slotSize e ids ≤ budget) :
    ∃ payload, reserve budget e ids = .ok payload := by
  obtain ⟨k, hk, -⟩ := padCleanupJSON_null e ids
  refine ⟨encodeChars e ("null".toList ++ List.replicate k ' '), ?_⟩
  simp only [reserve, bind_ok, cleanupSlotBytes_ok]
  exact ⟨slotSize e ids, ⟨h, rfl⟩, hk⟩

/-- A reserved slot holds `null`, and is of the size. -/
theorem reserve_ok {budget : ℕ} {e : Encoding} {ids : List Bytes} {payload : Bytes} (h : reserve budget e ids = .ok payload) :
    ∃ k, payload = encodeChars e ("null".toList ++ List.replicate k ' ') ∧ payload.length = slotSize e ids := by
  simp only [reserve, bind_ok, cleanupSlotBytes_ok] at h
  obtain ⟨_, ⟨-, rfl⟩, hpad⟩ := h
  obtain ⟨k, hk, hlength⟩ := padCleanupJSON_null e ids
  rw [hk] at hpad
  cases hpad
  exact ⟨k, rfl, hlength⟩

/-- `cleanupSlotBytes` of minted IDs. -/
theorem slotSize_minted (e : Encoding) {ids : List Bytes} (h : ∀ id ∈ ids, id.length = idBytes) :
    slotSize e ids = KyNotes.Cleanup.cleanupSlotBytes e := by
  have hactor : actorBytes ids = idBytes := by
    have hfold : (ids.map List.length).foldr max 0 ≤ idBytes := by
      induction ids with
      | nil => exact Nat.zero_le _
      | cons id ids ih =>
        rw [List.forall_mem_cons] at h
        rw [List.map_cons, List.foldr_cons, h.1]
        exact Nat.max_le.mpr ⟨Nat.le_refl _, ih h.2⟩
    exact Nat.max_eq_left hfold
  rw [slotSize, hactor]
  rfl

theorem fits {e : Encoding} {ids : List Bytes} {r : Record}
    (hactor : r.actor.length ≤ actorBytes ids ∨ (encodeText e r.actor).length ≤ actorBytes ids)
    (hrequest : r.request.length ≤ maxAuditRequestIDBytes) (htime : IsTime r.time) : (encodeChars e r.chars).length ≤ slotSize e ids := by
  have ha := stringBytes_le hactor
  have hr := stringBytes_le (e := e) (.inl hrequest)
  have hround : emptyBytes + 6 * (actorBytes ids + maxAuditRequestIDBytes) ≤
      (emptyBytes + 6 * (actorBytes ids + maxAuditRequestIDBytes) + 63) / 64 * 64 := by omega
  calc (encodeChars e r.chars).length
      = e.unit * 33 + stringBytes e r.actor + stringBytes e r.request + e.unit * 20 := by
        rw [length_chars, stringBytes_plain e htime.plain, htime.length_eq]
    _ ≤ (emptyBytes + 6 * (actorBytes ids + maxAuditRequestIDBytes)) * e.unit := by
        simp only [emptyBytes, Nat.add_mul, Nat.mul_add]
        nlinarith
    _ ≤ _ := Nat.mul_le_mul_right _ hround

/-- A record of an actor no longer than the longest user ID, of a request ID within the limit and of a time fits the slot:
the slot keeps its length, and decodes to the record. -/
theorem audit_records_fit (budget : ℕ) (e : Encoding) (ids : List Bytes) (payload : Bytes)
    (h : reserve budget e ids = .ok payload) (r : Record)
    (hactor : r.actor.length ≤ actorBytes ids ∨ (encodeText e r.actor).length ≤ actorBytes ids)
    (hrequest : r.request.length ≤ maxAuditRequestIDBytes) (htime : IsTime r.time) :
    ∃ filled, fill e payload r = .ok filled ∧ filled.length = payload.length ∧
      decode e filled = some ⟨some (Utf8.text r.actor), some (Utf8.text r.request), some (Utf8.text r.time)⟩ := by
  obtain ⟨k, rfl, hlength⟩ := reserve_ok h
  have hdvd : e.unit ∣ (encodeChars e ("null".toList ++ List.replicate k ' ')).length := unit_dvd_length e _
  have hle := fits hactor hrequest htime
  rw [← hlength] at hle
  obtain ⟨j, hpad, hlen⟩ := padCleanupJSON_encode hle hdvd
  refine ⟨_, ?_, hlen, ?_⟩
  · simp only [fill, bind_ok, require_ok]
    exact ⟨(), ⟨hrequest, htime.length_eq⟩, _, decodeCleanupJSON_encodeChars e _, (), trimSpace_null k, hpad⟩
  · simp only [decode, decodeCleanupJSON_encodeChars]
    exact unmarshal_chars r j

/-- An actor and a request ID that take six times their bytes. -/
theorem audit_records_fit_escaped :
    let r : Record := ⟨List.replicate 30 0xff, List.replicate 128 60, ascii "2026-11-05T00:00:00Z"⟩
    ∃ payload filled, reserve 10000 .utf16le [ascii "person"] = .ok payload ∧ fill .utf16le payload r = .ok filled ∧
      filled.length = payload.length ∧
      decode .utf16le filled = some ⟨some (Utf8.text r.actor), some (Utf8.text r.request), some (Utf8.text r.time)⟩ := by
  intro r
  have hbudget : slotSize .utf16le [ascii "person"] ≤ 10000 := by decide
  have htime : IsTime r.time := ⟨by decide, plain_of_all (by decide)⟩
  have hactor : r.actor.length ≤ actorBytes [ascii "person"] := List.length_replicate.trans_le (Nat.le_max_left ..)
  obtain ⟨payload, hpayload⟩ := reserve_total hbudget
  obtain ⟨filled, hfilled⟩ := audit_records_fit 10000 .utf16le [ascii "person"] payload hpayload r (.inl hactor)
    List.length_replicate.le htime
  exact ⟨payload, filled, hpayload, hfilled⟩

end KyNotes.Cleanup.Stored
