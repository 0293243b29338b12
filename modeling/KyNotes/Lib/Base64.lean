import Mathlib.Data.List.Basic
import Mathlib.Data.Option.Basic

/-!
# Base64

`encode` is the base64 of a byte string, as UTF-16 code units; `decode` is the forgiving decoder of browsers: it drops
white space, takes one or two padding characters off a string of whole quanta, refuses what is left over or outside of
the alphabet, and ignores the bits below the last byte. `decode_encode` is the round trip.
-/

namespace Base64

/-- The character of a digit. -/
def char (n : Nat) : UInt16 :=
  if n < 26 then UInt16.ofNat (65 + n)
  else if n < 52 then UInt16.ofNat (71 + n)
  else if n < 62 then UInt16.ofNat (n - 4)
  else if n = 62 then 43
  else 47

/-- The digit of a character. -/
def digit (c : UInt16) : Option Nat :=
  if 65 ≤ c ∧ c ≤ 90 then some (c.toNat - 65)
  else if 97 ≤ c ∧ c ≤ 122 then some (c.toNat - 71)
  else if 48 ≤ c ∧ c ≤ 57 then some (c.toNat + 4)
  else if c = 43 then some 62
  else if c = 47 then some 63
  else none

def pad : UInt16 := 61

/-- Tab, line feed, form feed, carriage return and space. -/
def isSpace (c : UInt16) : Bool := c = 9 ∨ c = 10 ∨ c = 12 ∨ c = 13 ∨ c = 32

/-- Six bits at a time. -/
def toDigits : List UInt8 → List Nat
  | [] => []
  | [a] => [a.toNat / 4, a.toNat % 4 * 16]
  | [a, b] => [a.toNat / 4, a.toNat % 4 * 16 + b.toNat / 16, b.toNat % 16 * 4]
  | a :: b :: c :: rest =>
    a.toNat / 4 :: (a.toNat % 4 * 16 + b.toNat / 16) :: (b.toNat % 16 * 4 + c.toNat / 64) :: c.toNat % 64 :: toDigits rest

/-- The bytes of digits; bits below the last byte are dropped. -/
def ofDigits : List Nat → List UInt8
  | [] | [_] => []
  | [x, y] => [UInt8.ofNat (x * 4 + y / 16)]
  | [x, y, z] => [UInt8.ofNat (x * 4 + y / 16), UInt8.ofNat (y % 16 * 16 + z / 4)]
  | x :: y :: z :: w :: rest =>
    UInt8.ofNat (x * 4 + y / 16) :: UInt8.ofNat (y % 16 * 16 + z / 4) :: UInt8.ofNat (z % 4 * 64 + w) :: ofDigits rest

def encode (bytes : List UInt8) : List UInt16 :=
  let digits := toDigits bytes
  digits.map char ++ List.replicate ((4 - digits.length % 4) % 4) pad

/-- Take one padding character off the end. -/
def unpad (s : List UInt16) : List UInt16 := if s.getLast? = some pad then s.dropLast else s

def decode (s : List UInt16) : Option (List UInt8) :=
  let data := s.filter fun c => !isSpace c
  let data := if data.length % 4 = 0 then unpad (unpad data) else data
  if data.length % 4 = 1 then none else (data.mapM digit).map ofDigits

/-- The strict decoder of Go: it drops line ends, and wants whole quanta. -/
def decodeStd (s : List UInt16) : Option (List UInt8) :=
  let data := s.filter fun c => !(c == 10 || c == 13)
  if data.length % 4 = 0 then ((unpad (unpad data)).mapM digit).map ofDigits else none

/-- The quanta that the strict decoder has read where it stops. -/
def quanta : List UInt16 → List UInt8
  | a :: b :: c :: d :: rest =>
    match digit a, digit b, digit c, digit d with
    | some x, some y, some z, some w => ofDigits [x, y, z, w] ++ quanta rest
    | some x, some y, some z, none => if d = pad then ofDigits [x, y, z] else []
    | some x, some y, none, _ => if c = pad ∧ d = pad then ofDigits [x, y] else []
    | _, _, _, _ => []
  | _ => []

/-- What the strict decoder returns besides its error. -/
def decodePrefix (s : List UInt16) : List UInt8 := quanta (s.filter fun c => !(c == 10 || c == 13))

/-! ## The round trip -/

theorem digit_char {n : Nat} (h : n < 64) : digit (char n) = some n := by
  have hall : ∀ n : Fin 64, digit (char n) = some n.val := by decide
  exact hall ⟨n, h⟩

theorem char_plain {n : Nat} (h : n < 64) : isSpace (char n) = false ∧ char n ≠ pad := by
  have hall : ∀ n : Fin 64, isSpace (char n) = false ∧ char n ≠ pad := by decide
  exact hall ⟨n, h⟩

theorem toDigits_lt : ∀ {bytes : List UInt8}, ∀ d ∈ toDigits bytes, d < 64
  | [], _, h => by cases h
  | [a], d, h => by
    have ha := a.toNat_lt
    simp only [toDigits, List.mem_cons, List.not_mem_nil, or_false] at h
    omega
  | [a, b], d, h => by
    have ha := a.toNat_lt
    have hb := b.toNat_lt
    simp only [toDigits, List.mem_cons, List.not_mem_nil, or_false] at h
    omega
  | a :: b :: c :: rest, d, h => by
    have ha := a.toNat_lt
    have hb := b.toNat_lt
    have hc := c.toNat_lt
    simp only [toDigits, List.mem_cons] at h
    rcases h with h | h | h | h | h
    · omega
    · omega
    · omega
    · omega
    · exact toDigits_lt d h

theorem toDigits_length : ∀ (bytes : List UInt8), (toDigits bytes).length % 4 ≠ 1
  | [] => by decide
  | [_] => by simp [toDigits]
  | [_, _] => by simp [toDigits]
  | _ :: _ :: _ :: rest => by
    have ih := toDigits_length rest
    simp only [toDigits, List.length_cons]
    omega

theorem ofNat_eq {n : Nat} {a : UInt8} (h : n = a.toNat) : UInt8.ofNat n = a := by
  rw [h]
  exact UInt8.ofNat_toNat

theorem ofDigits_toDigits : ∀ (bytes : List UInt8), ofDigits (toDigits bytes) = bytes
  | [] => rfl
  | [a] => by
    have ha := a.toNat_lt
    simp only [toDigits, ofDigits]
    rw [ofNat_eq (a := a) (by omega)]
  | [a, b] => by
    have ha := a.toNat_lt
    have hb := b.toNat_lt
    simp only [toDigits, ofDigits]
    rw [ofNat_eq (a := a) (by omega), ofNat_eq (a := b) (by omega)]
  | a :: b :: c :: rest => by
    have ha := a.toNat_lt
    have hb := b.toNat_lt
    have hc := c.toNat_lt
    simp only [toDigits, ofDigits]
    rw [ofNat_eq (a := a) (by omega), ofNat_eq (a := b) (by omega), ofNat_eq (a := c) (by omega),
      ofDigits_toDigits rest]

theorem unpad_pad (s : List UInt16) : unpad (s ++ [pad]) = s := by
  unfold unpad
  rw [List.getLast?_concat, if_pos rfl, List.dropLast_concat]

theorem unpad_plain {s : List UInt16} (h : pad ∉ s) : unpad s = s := by
  unfold unpad
  rw [if_neg]
  intro hl
  exact h (List.mem_of_getLast? hl)

/-- The padding that `encode` appends comes off again. -/
theorem unpad_replicate {s : List UInt16} (h : pad ∉ s) : ∀ {k : Nat}, k < 3 →
    unpad (unpad (s ++ List.replicate k pad)) = s
  | 0, _ => by rw [List.replicate_zero, List.append_nil, unpad_plain h, unpad_plain h]
  | 1, _ => by rw [List.replicate_one, unpad_pad, unpad_plain h]
  | 2, _ => by
    have h2 : s ++ List.replicate 2 pad = (s ++ [pad]) ++ [pad] := by
      rw [List.append_assoc]
      rfl
    rw [h2, unpad_pad, unpad_pad]

theorem mapM_digit : ∀ {ds : List Nat}, (∀ d ∈ ds, d < 64) → (ds.map char).mapM digit = some ds
  | [], _ => rfl
  | d :: ds, h => by
    have hd := digit_char (h d List.mem_cons_self)
    have ih := mapM_digit fun d hd => h d (List.mem_cons_of_mem _ hd)
    rw [List.map_cons, List.mapM_cons, hd, ih]
    rfl

/-- `encode` writes whole quanta. -/
theorem length_encode (bytes : List UInt8) : (encode bytes).length % 4 = 0 := by
  simp only [encode, List.length_append, List.length_map, List.length_replicate]
  omega

/-- `encode` writes characters of the alphabet and padding. -/
theorem mem_encode {bytes : List UInt8} {c : UInt16} (h : c ∈ encode bytes) : (∃ d < 64, char d = c) ∨ c = pad := by
  rw [encode, List.mem_append, List.mem_map] at h
  obtain ⟨d, hd, rfl⟩ | h := h
  · exact .inl ⟨d, toDigits_lt d hd, rfl⟩
  · exact .inr (List.eq_of_mem_replicate h)

theorem not_isSpace_of_mem_encode {bytes : List UInt8} {c : UInt16} (h : c ∈ encode bytes) : isSpace c = false := by
  obtain ⟨d, hd, rfl⟩ | rfl := mem_encode h
  · exact (char_plain hd).1
  · rfl

/-- The code units that `encode` writes are bytes. -/
theorem byte_of_mem_encode {bytes : List UInt8} {c : UInt16} (h : c ∈ encode bytes) :
    UInt16.ofNat (UInt8.ofNat c.toNat).toNat = c := by
  have hall : ∀ n : Fin 64, UInt16.ofNat (UInt8.ofNat (char n).toNat).toNat = char n := by decide
  obtain ⟨d, hd, rfl⟩ | rfl := mem_encode h
  · exact hall ⟨d, hd⟩
  · rfl

/-- The digits of an encoding, without its padding. -/
theorem unpad_encode (bytes : List UInt8) : unpad (unpad (encode bytes)) = (toDigits bytes).map char := by
  have hlen := toDigits_length bytes
  have hplain : pad ∉ (toDigits bytes).map char := by
    intro hm
    obtain ⟨d, hd, hc⟩ := List.mem_map.mp hm
    exact (char_plain (toDigits_lt d hd)).2 hc
  exact unpad_replicate hplain (by omega)

theorem digits_encode (bytes : List UInt8) :
    ((unpad (unpad (encode bytes))).mapM digit).map ofDigits = some bytes := by
  rw [unpad_encode, mapM_digit toDigits_lt, Option.map_some, ofDigits_toDigits]

/-- What `encode` writes, `decode` reads. -/
theorem decode_encode (bytes : List UInt8) : decode (encode bytes) = some bytes := by
  have hlen := toDigits_length bytes
  have hwhole := length_encode bytes
  have hfilter : (encode bytes).filter (fun c => !isSpace c) = encode bytes :=
    List.filter_eq_self.mpr fun c hc => by rw [not_isSpace_of_mem_encode hc]; rfl
  have hdata : (unpad (unpad (encode bytes))).length % 4 ≠ 1 := by rwa [unpad_encode, List.length_map]
  unfold decode
  simp only [hfilter, if_pos hwhole, if_neg hdata, digits_encode]

/-- No line end is written. -/
theorem filter_line_encode (bytes : List UInt8) : (encode bytes).filter (fun c => !(c == 10 || c == 13)) = encode bytes := by
  refine List.filter_eq_self.mpr fun c hc => ?_
  have hspace := not_isSpace_of_mem_encode hc
  simp only [isSpace, decide_eq_false_iff_not, not_or] at hspace
  simp [hspace.2.1, hspace.2.2.2.1]

theorem decodeStd_encode (bytes : List UInt8) : decodeStd (encode bytes) = some bytes := by
  unfold decodeStd
  simp only [filter_line_encode, if_pos (length_encode bytes), digits_encode]

theorem quanta_char {x y z w : Nat} (hx : x < 64) (hy : y < 64) (hz : z < 64) (hw : w < 64) (rest : List UInt16) :
    quanta (char x :: char y :: char z :: char w :: rest) = ofDigits [x, y, z, w] ++ quanta rest := by
  simp only [quanta, digit_char hx, digit_char hy, digit_char hz, digit_char hw]

theorem quanta_encode : ∀ (bytes : List UInt8), quanta (encode bytes) = bytes
  | [] => rfl
  | [a] => by
    have ha := a.toNat_lt
    have hx : a.toNat / 4 < 64 := by omega
    have hy : a.toNat % 4 * 16 < 64 := by omega
    have hdec := ofDigits_toDigits [a]
    have hpad : digit pad = none := rfl
    simp only [toDigits] at hdec
    show quanta [char (a.toNat / 4), char (a.toNat % 4 * 16), pad, pad] = [a]
    simp only [quanta, digit_char hx, digit_char hy, hpad, and_self, if_true, hdec]
  | [a, b] => by
    have ha := a.toNat_lt
    have hb := b.toNat_lt
    have hx : a.toNat / 4 < 64 := by omega
    have hy : a.toNat % 4 * 16 + b.toNat / 16 < 64 := by omega
    have hz : b.toNat % 16 * 4 < 64 := by omega
    have hdec := ofDigits_toDigits [a, b]
    have hpad : digit pad = none := rfl
    simp only [toDigits] at hdec
    show quanta [char (a.toNat / 4), char (a.toNat % 4 * 16 + b.toNat / 16), char (b.toNat % 16 * 4), pad] = [a, b]
    simp only [quanta, digit_char hx, digit_char hy, digit_char hz, hpad, if_true, hdec]
  | a :: b :: c :: rest => by
    have ha := a.toNat_lt
    have hb := b.toNat_lt
    have hc := c.toNat_lt
    have hdec := ofDigits_toDigits [a, b, c]
    simp only [toDigits] at hdec
    have hrest : encode (a :: b :: c :: rest) = char (a.toNat / 4) :: char (a.toNat % 4 * 16 + b.toNat / 16) ::
        char (b.toNat % 16 * 4 + c.toNat / 64) :: char (c.toNat % 64) :: encode rest := by
      simp only [encode, toDigits, List.length_cons, List.map_cons, List.cons_append, List.cons.injEq, true_and]
      rw [show (toDigits rest).length + 1 + 1 + 1 + 1 = (toDigits rest).length + 4 from rfl, Nat.add_mod_right]
    rw [hrest, quanta_char (by omega) (by omega) (by omega) (by omega), hdec, quanta_encode rest]
    rfl
theorem decodePrefix_encode (bytes : List UInt8) : decodePrefix (encode bytes) = bytes := by
  rw [decodePrefix, filter_line_encode, quanta_encode]

end Base64
