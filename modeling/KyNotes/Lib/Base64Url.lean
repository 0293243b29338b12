import KyNotes.Lib.Base64

/-!
# Base64 in URLs

The alphabet of URLs has `-` and `_` for `+` and `/`. A browser writes it as the standard encoding with the characters
replaced and the padding taken off, and reads it by undoing both (`encodeUrl`, `decodeUrl`). A strict reader knows the
alphabet itself and no padding (`encodeRawUrl`, `decodeRawUrl`). `encodeUrl_eq` says that both write the same text;
each reads what the other writes.
-/

namespace Base64

/-- The character of a URL for a character of the standard alphabet. -/
def urlChar (c : UInt16) : UInt16 := if c = 43 then 45 else if c = 47 then 95 else c

/-- The character of the standard alphabet for a character of a URL. -/
def stdChar (c : UInt16) : UInt16 := if c = 45 then 43 else if c = 95 then 47 else c

/-- The standard encoding, with its characters replaced and without its padding. -/
def encodeUrl (bytes : List UInt8) : List UInt16 := ((encode bytes).map urlChar).filter fun c => c ≠ pad

/-- The standard decoding of a text with its characters put back and its padding restored. -/
def decodeUrl (s : List UInt16) : Option (List UInt8) :=
  decode (s.map stdChar ++ List.replicate ((4 - s.length % 4) % 4) pad)

/-- The digits in the alphabet of URLs, without padding. -/
def encodeRawUrl (bytes : List UInt8) : List UInt16 := (toDigits bytes).map fun d => urlChar (char d)

/-- The digit of a character of the alphabet of URLs. -/
def urlDigit (c : UInt16) : Option Nat :=
  if c = 45 then some 62 else if c = 95 then some 63 else if c = 43 ∨ c = 47 then none else digit c

/-- The strict decoder: it drops line ends, and refuses padding and a single left-over digit. -/
def decodeRawUrl (s : List UInt16) : Option (List UInt8) :=
  let data := s.filter fun c => !(c == 10 || c == 13)
  if data.length % 4 = 1 then none else (data.mapM urlDigit).map ofDigits

/-! ## One character -/

theorem urlDigit_char {n : Nat} (h : n < 64) : urlDigit (urlChar (char n)) = some n := by
  have hall : ∀ n : Fin 64, urlDigit (urlChar (char n)) = some n.val := by decide
  exact hall ⟨n, h⟩

theorem stdChar_urlChar {n : Nat} (h : n < 64) : stdChar (urlChar (char n)) = char n := by
  have hall : ∀ n : Fin 64, stdChar (urlChar (char n)) = char n := by decide
  exact hall ⟨n, h⟩

/-- A letter, a digit, `-` or `_`. -/
def IsPlain (c : UInt16) : Prop :=
  65 ≤ c ∧ c ≤ 90 ∨ 97 ≤ c ∧ c ≤ 122 ∨ 48 ≤ c ∧ c ≤ 57 ∨ c = 45 ∨ c = 95

instance : DecidablePred IsPlain := fun c =>
  inferInstanceAs (Decidable (65 ≤ c ∧ c ≤ 90 ∨ 97 ≤ c ∧ c ≤ 122 ∨ 48 ≤ c ∧ c ≤ 57 ∨ c = 45 ∨ c = 95))

theorem urlChar_plain {n : Nat} (h : n < 64) : IsPlain (urlChar (char n)) := by
  have hall : ∀ n : Fin 64, IsPlain (urlChar (char n)) := by decide
  exact hall ⟨n, h⟩

theorem IsPlain.ascii {c : UInt16} (h : IsPlain c) : c < 128 := by
  simp only [IsPlain, UInt16.le_iff_toNat_le, ← UInt16.toNat_inj] at h
  rw [UInt16.lt_iff_toNat_lt]
  simp only [UInt16.reduceToNat] at h ⊢
  omega

/-- A plain character is none that means something in a URL. -/
theorem IsPlain.ne {c d : UInt16} (h : IsPlain c) (hd : ¬IsPlain d) : c ≠ d := by
  rintro rfl
  exact hd h

/-! ## Both writers -/

theorem mem_encodeRawUrl {bytes : List UInt8} {c : UInt16} (h : c ∈ encodeRawUrl bytes) : IsPlain c := by
  obtain ⟨d, hd, rfl⟩ := List.mem_map.1 h
  exact urlChar_plain (toDigits_lt d hd)

/-- Both writers write the same text. -/
theorem encodeUrl_eq (bytes : List UInt8) : encodeUrl bytes = encodeRawUrl bytes := by
  have hplain : ∀ c ∈ encodeRawUrl bytes, decide (c ≠ pad) = true := fun c hc =>
    decide_eq_true ((mem_encodeRawUrl hc).ne (by decide))
  have hpad : ∀ k, ((List.replicate k pad).map urlChar).filter (fun c => c ≠ pad) = [] := by
    intro k
    rw [List.map_replicate, List.filter_replicate, if_neg (by decide)]
  rw [encodeUrl, encode, List.map_append, List.filter_append, hpad, List.append_nil, List.map_map]
  exact List.filter_eq_self.2 hplain

theorem length_toDigits : ∀ (bytes : List UInt8), (toDigits bytes).length = (bytes.length * 4 + 2) / 3
  | [] => rfl
  | [_] => by simp [toDigits]
  | [_, _] => by simp [toDigits]
  | _ :: _ :: _ :: rest => by
    have ih := length_toDigits rest
    simp only [toDigits, List.length_cons, ih]
    omega

@[simp] theorem length_encodeRawUrl (bytes : List UInt8) : (encodeRawUrl bytes).length = (bytes.length * 4 + 2) / 3 := by
  rw [encodeRawUrl, List.length_map, length_toDigits]

/-! ## Both readers -/

theorem mapM_urlDigit : ∀ {ds : List Nat}, (∀ d ∈ ds, d < 64) →
    (ds.map fun d => urlChar (char d)).mapM urlDigit = some ds
  | [], _ => rfl
  | d :: ds, h => by
    have hd := urlDigit_char (h d List.mem_cons_self)
    have ih := mapM_urlDigit fun d hd => h d (List.mem_cons_of_mem _ hd)
    rw [List.map_cons, List.mapM_cons, hd, ih]
    rfl

/-- The strict reader reads what is written. -/
theorem decodeRawUrl_encode (bytes : List UInt8) : decodeRawUrl (encodeRawUrl bytes) = some bytes := by
  have hfilter : (encodeRawUrl bytes).filter (fun c => !(c == 10 || c == 13)) = encodeRawUrl bytes := by
    refine List.filter_eq_self.2 fun c hc => ?_
    have hline : c ≠ 10 := (mem_encodeRawUrl hc).ne (by decide)
    have hreturn : c ≠ 13 := (mem_encodeRawUrl hc).ne (by decide)
    simp [hline, hreturn]
  have hlen : (encodeRawUrl bytes).length % 4 ≠ 1 := by
    rw [encodeRawUrl, List.length_map]
    exact toDigits_length bytes
  simp only [decodeRawUrl, hfilter, if_neg hlen]
  rw [encodeRawUrl, mapM_urlDigit toDigits_lt, Option.map_some, ofDigits_toDigits]

/-- The browser's reader reads what is written. -/
theorem decodeUrl_encode (bytes : List UInt8) : decodeUrl (encodeRawUrl bytes) = some bytes := by
  have hback : (encodeRawUrl bytes).map stdChar = (toDigits bytes).map char := by
    rw [encodeRawUrl, List.map_map]
    exact List.map_congr_left fun d hd => stdChar_urlChar (toDigits_lt d hd)
  have hlen : (encodeRawUrl bytes).length = (toDigits bytes).length := List.length_map _
  rw [decodeUrl, hback, hlen]
  exact decode_encode bytes

end Base64
